import Nachos.Filesys.Directory
import Nachos.Userprog.BitMap

/-! # The file system (`filesys/filehdr.cc`, `filesys/filesys.cc`)

`Allocate` and `Deallocate` move sectors between the free map and a file header. `Create` and
`Remove` fetch the directory and the free map from their files, edit them in memory and write them
back. A process works on an open file through a descriptor; removing a file invalidates the
descriptors that were opened on it. -/
set_option autoImplicit false

namespace Nachos
open Buffer Execution

/-- `ASSERT(condition)`. -/
def assertThat (condition : Bool) : Call Unit := if condition then .ok () else .error .assertFailed

namespace FileHeader

/-- The loop of `Allocate`, for the first `n` data sectors. -/
def allocateBelow (h : FileHeader) (freeMap : BitMap) : ℕ → Call (FileHeader × BitMap)
  | 0 => .ok (h, freeMap)
  | n + 1 => do
    let (h, freeMap) ← allocateBelow h freeMap n
    let (sector, freeMap) ← freeMap.find
    if n < numDirect then
      return ({ h with dataSectors := Function.update h.dataSectors n sector }, freeMap)
    else .error (.outOfBounds .dataSectors)

/-- `FileHeader::Allocate`. -/
def allocate (h : FileHeader) (freeMap : BitMap) (fileSize : Int) : Call (Bool × FileHeader × BitMap) := do
  let h := { h with numBytes := fileSize, numSectors := divRoundUp fileSize sectorSize }
  let clear ← freeMap.numClear
  if clear < h.numSectors then return (false, h, freeMap)
  else
    let (h, freeMap) ← h.allocateBelow freeMap h.numSectors.toNat
    return (true, h, freeMap)

/-- The loop of `Deallocate`, for the first `n` data sectors. -/
def deallocateBelow (h : FileHeader) (freeMap : BitMap) : ℕ → Call BitMap
  | 0 => .ok freeMap
  | n + 1 => do
    let freeMap ← deallocateBelow h freeMap n
    if n < numDirect then
      let marked ← freeMap.test (h.dataSectors n)
      assertThat marked
      freeMap.clear (h.dataSectors n)
    else .error (.outOfBounds .dataSectors)

/-- `FileHeader::Deallocate`. -/
def deallocate (h : FileHeader) (freeMap : BitMap) : Call BitMap :=
  h.deallocateBelow freeMap h.numSectors.toNat

end FileHeader

abbrev freeMapSector : ℕ := 0
abbrev directorySector : ℕ := 1
abbrev freeMapFileSize : ℕ := numSectors / 8
abbrev numDirEntries : ℕ := 10
abbrev directoryFileSize : ℕ := directoryEntrySize * numDirEntries

structure FileSystem where
  freeMapFile : OpenFile
  directoryFile : OpenFile

namespace FileSystem

/-- `new BitMap(NumSectors)`. -/
def newFreeMap (junk : Image) : Call BitMap :=
  BitMap.new (fun i => wordAt junk (4 * i)) (Nachos.numSectors : ℕ)

/-- The bitmap and the two headers `FileSystem(TRUE)` sets up in memory. -/
def formatHeaders (junk : ℕ → Image) : Call (BitMap × FileHeader × FileHeader) := do
  let freeMap ← newFreeMap (junk 0)
  let freeMap ← freeMap.mark freeMapSector
  let freeMap ← freeMap.mark directorySector
  let (success, mapHdr, freeMap) ← (FileHeader.ofImage (junk 1)).allocate freeMap freeMapFileSize
  assertThat success
  let (success, dirHdr, freeMap) ← (FileHeader.ofImage (junk 2)).allocate freeMap directoryFileSize
  assertThat success
  return (freeMap, mapHdr, dirHdr)

/-- `FileSystem::FileSystem(TRUE)`: format the disk. -/
def format (junk : ℕ → Image) (disk : Disk) : Call (FileSystem × Disk) := do
  let directory := Directory.new (junk 3) numDirEntries
  let (freeMap, mapHdr, dirHdr) ← formatHeaders junk
  let disk ← mapHdr.writeBack disk freeMapSector
  let disk ← dirHdr.writeBack disk directorySector
  let freeMapFile ← OpenFile.openAt disk freeMapSector
  let directoryFile ← OpenFile.openAt disk directorySector
  let disk ← freeMap.writeBack disk freeMapFile (junk 4)
  let disk ← directory.writeBack disk directoryFile (junk 5)
  return (⟨freeMapFile, directoryFile⟩, disk)

/-- `new Directory(NumDirEntries)`, then `FetchFrom(directoryFile)`. -/
def fetchDirectory (fs : FileSystem) (junk : ℕ → Image) (disk : Disk) : Call Directory :=
  (Directory.new (junk 0) numDirEntries).fetchFrom disk fs.directoryFile (junk 1)

/-- `new BitMap(NumSectors)`, then `FetchFrom(freeMapFile)`. -/
def fetchFreeMap (fs : FileSystem) (junk : ℕ → Image) (disk : Disk) : Call BitMap := do
  let freeMap ← newFreeMap (junk 2)
  freeMap.fetchFrom disk fs.freeMapFile (junk 3)

/-- The end of `Create`, once the header has its sector and the directory its new entry. -/
def createFile (fs : FileSystem) (junk : ℕ → Image) (disk : Disk) (directory : Directory)
    (freeMap : BitMap) (sector initialSize : Int) : Call (Bool × Disk) := do
  let (success, hdr, freeMap) ← (FileHeader.ofImage (junk 4)).allocate freeMap initialSize
  if ! success then return (false, disk)
  else
    let disk ← hdr.writeBack disk sector
    let disk ← directory.writeBack disk fs.directoryFile (junk 5)
    let disk ← freeMap.writeBack disk fs.freeMapFile (junk 6)
    return (true, disk)

/-- `FileSystem::Create`. -/
def create (fs : FileSystem) (junk : ℕ → Image) (disk : Disk) (name : Image) (initialSize : Int) :
    Call (Bool × Disk) := do
  let directory ← fs.fetchDirectory junk disk
  if directory.find name ≠ -1 then return (false, disk)
  else
    let freeMap ← fs.fetchFreeMap junk disk
    let (sector, freeMap) ← freeMap.find
    if sector = -1 then return (false, disk)
    else if ! (directory.add name sector).1 then return (false, disk)
    else fs.createFile junk disk (directory.add name sector).2 freeMap sector initialSize

/-- The directory look-up of `Open` and `Remove`. -/
def lookup (fs : FileSystem) (junk : ℕ → Image) (disk : Disk) (name : Image) : Call Int := do
  let directory ← fs.fetchDirectory junk disk
  return directory.find name

/-- `FileSystem::Open`. -/
def openFile (fs : FileSystem) (junk : ℕ → Image) (disk : Disk) (name : Image) :
    Call (Option OpenFile) := do
  let sector ← fs.lookup junk disk name
  if 0 ≤ sector then
    let file ← OpenFile.openAt disk sector
    return some file
  else return none

/-- `FileSystem::Remove`. -/
def remove (fs : FileSystem) (junk : ℕ → Image) (disk : Disk) (name : Image) : Call (Bool × Disk) := do
  let directory ← fs.fetchDirectory junk disk
  if directory.find name = -1 then return (false, disk)
  else
    let fileHdr ← FileHeader.fetchFrom disk (directory.find name)
    let freeMap ← fs.fetchFreeMap junk disk
    let freeMap ← fileHdr.deallocate freeMap
    let freeMap ← freeMap.clear (directory.find name)
    let disk ← freeMap.writeBack disk fs.freeMapFile (junk 4)
    let disk ← (directory.remove name).2.writeBack disk fs.directoryFile (junk 5)
    return (true, disk)

end FileSystem

/-! ## Runs -/

/-- An open file, and the sector its header was fetched from. -/
structure Handle where
  sector : Int
  file : OpenFile

/-- The file system with the files that processes have open. -/
structure FsState where
  fs : FileSystem
  disk : Disk
  handles : ℕ → Option Handle

/-- A call a process makes; a descriptor is the slot its `OpenFile` is kept in. -/
inductive FsOp where
  | create (name : Image) (initialSize : Int)
  | openFile (name : Image) (fd : ℕ)
  | remove (name : Image)
  | read (fd : ℕ) (numBytes : Int)
  | write (fd : ℕ) (src : Image) (numBytes : Int)
  | readAt (fd : ℕ) (numBytes position : Int)
  | writeAt (fd : ℕ) (src : Image) (numBytes position : Int)
  | seek (fd : ℕ) (position : Int)
  | close (fd : ℕ)

namespace FsState

/-- A call through descriptor `fd`; nothing is called through one that is not open. -/
def onFile (s : FsState) (fd : ℕ) (call : OpenFile → Call (Disk × OpenFile)) : Call FsState :=
  match s.handles fd with
  | none => .ok s
  | some hd => do
    let (disk, file) ← call hd.file
    return { s with disk := disk, handles := Function.update s.handles fd (some { hd with file := file }) }

def step (s : FsState) (junk : ℕ → Image) : FsOp → Call FsState
  | .create name initialSize => do
    let (_, disk) ← s.fs.create junk s.disk name initialSize
    return { s with disk := disk }
  | .openFile name fd => do
    let sector ← s.fs.lookup junk s.disk name
    let file ← s.fs.openFile junk s.disk name
    return { s with handles := Function.update s.handles fd (file.map (Handle.mk sector)) }
  | .remove name => do
    let sector ← s.fs.lookup junk s.disk name
    let (_, disk) ← s.fs.remove junk s.disk name
    -- a handle on the removed file is no longer a file of the directory
    return { s with disk := disk, handles := fun fd => (s.handles fd).filter (fun hd => hd.sector ≠ sector) }
  | .read fd numBytes => s.onFile fd fun f => do
    let (_, _, f) ← f.read s.disk (junk 0) numBytes
    return (s.disk, f)
  | .write fd src numBytes => s.onFile fd fun f => do
    let (_, disk, f) ← f.write s.disk (junk 0) src numBytes
    return (disk, f)
  | .readAt fd numBytes position => s.onFile fd fun f => do
    let _ ← Nachos.readAt s.disk f.hdr (junk 0) numBytes position
    return (s.disk, f)
  | .writeAt fd src numBytes position => s.onFile fd fun f => do
    let (_, disk) ← Nachos.writeAt s.disk f.hdr (junk 0) src numBytes position
    return (disk, f)
  | .seek fd position => s.onFile fd fun f => .ok (s.disk, f.seek position)
  | .close fd => .ok { s with handles := Function.update s.handles fd none }

/-- The state `FileSystem(TRUE)` leaves, whatever the disk held before. -/
def Formatted (s : FsState) : Prop :=
  ∃ junk disk, FileSystem.format junk disk = .ok (s.fs, s.disk) ∧ s.handles = fun _ => none

/-- Files are created with a size a header has room for. -/
def Allowed (_ : FsState) (call : (ℕ → Image) × FsOp) : Prop :=
  ∀ name initialSize, call.2 = .create name initialSize → 0 ≤ initialSize ∧ initialSize ≤ maxFileSize

/-- The states reached from a formatted disk. -/
def Reached : FsState → Prop :=
  Reachable Formatted (fun s call s' => s.step call.1 call.2 = .ok s') Allowed

end FsState

end Nachos
