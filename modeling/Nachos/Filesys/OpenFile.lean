import Nachos.Machine.Basic

/-! # File headers and open files (`filesys/filehdr.cc`, `filesys/openfile.cc`)

A file header is stored in one sector: two words and the table `dataSectors`. `ReadAt` gathers
whole sectors into a buffer and copies out the part asked for; `WriteAt` first reads the sectors it
covers partially, then copies in and writes whole sectors back. `junk` is what freshly allocated
memory happens to hold. -/
set_option autoImplicit false

namespace Nachos
open Buffer

/-! ## File headers -/

/-- `NumDirect`: the data sectors a header has room for. -/
abbrev numDirect : ℕ := (sectorSize - 2 * 4) / 4

/-- `MaxFileSize`. -/
abbrev maxFileSize : ℕ := numDirect * sectorSize

/-- A file header; `dataSectors` is meaningful below `numDirect`. -/
structure FileHeader where
  numBytes : Int
  numSectors : Int
  dataSectors : ℕ → Int

namespace FileHeader

/-- The 32 words of the header, in the order of its fields. -/
def words (h : FileHeader) : ℕ → BitVec 32
  | 0 => BitVec.ofInt 32 h.numBytes
  | 1 => BitVec.ofInt 32 h.numSectors
  | i + 2 => BitVec.ofInt 32 (h.dataSectors i)

/-- The header as the bytes of one sector. -/
def image (h : FileHeader) : Image := ofWords h.words

/-- The header a sector's bytes stand for. -/
def ofImage (m : Image) : FileHeader where
  numBytes := (wordAt m 0).toInt
  numSectors := (wordAt m 4).toInt
  dataSectors := fun i => (wordAt m (4 * (i + 2))).toInt

/-- `FileHeader::FetchFrom`. -/
def fetchFrom (disk : Disk) (sector : Int) : Call FileHeader := do
  let m ← readSector disk sector
  return ofImage m

/-- `FileHeader::WriteBack`. -/
def writeBack (h : FileHeader) (disk : Disk) (sector : Int) : Call Disk :=
  writeSector disk sector h.image

/-- `FileHeader::FileLength`. -/
def fileLength (h : FileHeader) : Int := h.numBytes

/-- `FileHeader::ByteToSector`. -/
def byteToSector (h : FileHeader) (offset : Int) : Call Int :=
  if 0 ≤ offset.tdiv sectorSize ∧ offset.tdiv sectorSize < numDirect then
    .ok (h.dataSectors (offset.tdiv sectorSize).toNat)
  else .error (.outOfBounds .dataSectors)

end FileHeader

/-! ## Reading and writing at a position -/

/-- `numBytes` cut off at the end of the file. -/
def clip (fileLength numBytes position : Int) : Int :=
  if position + numBytes > fileLength then fileLength - position else numBytes

/-- The loop of `ReadAt`: the sectors `first`, `first + 1`, .. of the file, one after the other. -/
def readSectors (disk : Disk) (hdr : FileHeader) (first : Int) : ℕ → Image → Call Image
  | 0, buf => .ok buf
  | n + 1, buf => do
    let buf ← readSectors disk hdr first n buf
    let sector ← hdr.byteToSector ((first + n) * sectorSize)
    let data ← readSector disk sector
    return copy buf (n * sectorSize) data sectorSize

/-- The loop of `WriteAt` that writes the modified sectors back. -/
def writeSectors (hdr : FileHeader) (first : Int) (buf : Image) : ℕ → Disk → Call Disk
  | 0, disk => .ok disk
  | n + 1, disk => do
    let disk ← writeSectors hdr first buf n disk
    let sector ← hdr.byteToSector ((first + n) * sectorSize)
    writeSector disk sector (shift buf (n * sectorSize))

/-- `bcopy` out of a buffer of `size` bytes, from offset `pos` on. -/
def bcopyOut (buf : Image) (size pos len : Int) : Call Image :=
  if 0 ≤ pos ∧ pos + len ≤ size then .ok (shift buf pos.toNat) else .error (.outOfBounds .buffer)

/-- `bcopy` into a buffer of `size` bytes, at offset `pos`. -/
def bcopyIn (buf : Image) (size pos : Int) (src : Image) (len : Int) : Call Image :=
  if 0 ≤ pos ∧ pos + len ≤ size then .ok (copy buf pos.toNat src len.toNat)
  else .error (.outOfBounds .buffer)

/-- `OpenFile::ReadAt` past its range check: the bytes delivered. -/
def readSpan (disk : Disk) (hdr : FileHeader) (junk : Image) (numBytes position : Int) : Call Image := do
  let firstSector := divRoundDown position sectorSize
  let lastSector := divRoundDown (position + numBytes - 1) sectorSize
  let numSectors := 1 + lastSector - firstSector
  let buf ← readSectors disk hdr firstSector numSectors.toNat junk
  bcopyOut buf (numSectors * sectorSize) (position - firstSector * sectorSize) numBytes

/-- `OpenFile::ReadAt`: how many bytes were read, and the bytes. -/
def readAt (disk : Disk) (hdr : FileHeader) (junk : Image) (numBytes position : Int) :
    Call (Int × Image) :=
  if numBytes ≤ 0 ∨ position ≥ hdr.fileLength then .ok (0, junk)
  else if position + numBytes > intMax then .error .overflow
  else do
    let bytes ← readSpan disk hdr junk (clip hdr.fileLength numBytes position) position
    return (clip hdr.fileLength numBytes position, bytes)

/-- A `ReadAt` of one whole sector into a buffer at offset `pos`. -/
def readSectorInto (disk : Disk) (hdr : FileHeader) (junk buf : Image) (pos sector : Int) :
    Call Image := do
  let (n, bytes) ← readAt disk hdr junk sectorSize (sector * sectorSize)
  return copy buf pos.toNat bytes n.toNat

/-- `WriteAt` reads in the first sector, if it is to be partially modified. -/
def readFirst (disk : Disk) (hdr : FileHeader) (junk : Image) (position firstSector : Int) :
    Call Image :=
  if ¬ position = firstSector * sectorSize then readSectorInto disk hdr junk junk 0 firstSector
  else .ok junk

/-- The same for the last sector, unless it is the first one and already there. -/
def readLast (disk : Disk) (hdr : FileHeader) (junk buf : Image)
    (numBytes position firstSector lastSector : Int) : Call Image :=
  if ¬ position + numBytes = (lastSector + 1) * sectorSize ∧
      (firstSector ≠ lastSector ∨ position = firstSector * sectorSize) then
    readSectorInto disk hdr junk buf ((lastSector - firstSector) * sectorSize) lastSector
  else .ok buf

/-- `OpenFile::WriteAt` past its range check. -/
def writeSpan (disk : Disk) (hdr : FileHeader) (junk src : Image) (numBytes position : Int) :
    Call Disk := do
  let firstSector := divRoundDown position sectorSize
  let lastSector := divRoundDown (position + numBytes - 1) sectorSize
  let numSectors := 1 + lastSector - firstSector
  let buf ← readFirst disk hdr junk position firstSector
  let buf ← readLast disk hdr junk buf numBytes position firstSector lastSector
  let buf ← bcopyIn buf (numSectors * sectorSize) (position - firstSector * sectorSize) src numBytes
  writeSectors hdr firstSector buf numSectors.toNat disk

/-- `OpenFile::WriteAt`: how many bytes were written, and the disk afterwards. -/
def writeAt (disk : Disk) (hdr : FileHeader) (junk src : Image) (numBytes position : Int) :
    Call (Int × Disk) :=
  if numBytes ≤ 0 ∨ position ≥ hdr.fileLength then .ok (0, disk)
  else if position + numBytes > intMax then .error .overflow
  else do
    let disk ← writeSpan disk hdr junk src (clip hdr.fileLength numBytes position) position
    return (clip hdr.fileLength numBytes position, disk)

/-! ## Open files -/

structure OpenFile where
  hdr : FileHeader
  seekPosition : Int

namespace OpenFile

/-- `OpenFile::OpenFile`: bring the header into memory. -/
def openAt (disk : Disk) (sector : Int) : Call OpenFile := do
  let hdr ← FileHeader.fetchFrom disk sector
  return { hdr := hdr, seekPosition := 0 }

/-- `OpenFile::Seek`. -/
def seek (f : OpenFile) (position : Int) : OpenFile := { f with seekPosition := position }

/-- `OpenFile::Read`. -/
def read (f : OpenFile) (disk : Disk) (junk : Image) (numBytes : Int) :
    Call (Int × Image × OpenFile) := do
  let (result, bytes) ← readAt disk f.hdr junk numBytes f.seekPosition
  return (result, bytes, { f with seekPosition := f.seekPosition + result })

/-- `OpenFile::Write`. -/
def write (f : OpenFile) (disk : Disk) (junk src : Image) (numBytes : Int) :
    Call (Int × Disk × OpenFile) := do
  let (result, disk) ← writeAt disk f.hdr junk src numBytes f.seekPosition
  return (result, disk, { f with seekPosition := f.seekPosition + result })

/-- `OpenFile::Length`. -/
def length (f : OpenFile) : Int := f.hdr.fileLength

/-- One `Write` call for each chunk, as `Copy` of `fstest.cc` makes them. -/
def writeAll (junk : ℕ → Image) : OpenFile → Disk → List (List UInt8) → Call (List Int × Disk × OpenFile)
  | f, disk, [] => .ok ([], disk, f)
  | f, disk, c :: cs => do
    let (result, disk, f) ← f.write disk (junk cs.length) (fun o => c.getD o 0) c.length
    let (results, disk, f) ← writeAll junk f disk cs
    return (result :: results, disk, f)

/-- One `Read` call for each size, as `Print` of `fstest.cc` makes them; what they deliver. -/
def readAll (disk : Disk) (junk : ℕ → Image) : OpenFile → List Int → Call (List UInt8 × OpenFile)
  | f, [] => .ok ([], f)
  | f, n :: ns => do
    let (result, bytes, f) ← f.read disk (junk ns.length) n
    let (rest, f) ← readAll disk junk f ns
    return ((List.range result.toNat).map bytes ++ rest, f)

end OpenFile

end Nachos
