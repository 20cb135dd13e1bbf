import Nachos.Machine.Translate
import Nachos.Userprog.BitMap

/-! # Address spaces (`userprog/addrspace.cc`)

A process has a page table; the frames, the table `available_pages` of their use counts and the swap
sectors are shared by all of them. `loadPage` is `load_page` with all its branches, `tryStorePage`
and `storePage` choose and write out a victim. Addresses and sizes are 32-bit `int`s that wrap. A
routine that loads pages takes the loading routine as an argument, so that its calls can be watched. -/
set_option autoImplicit false

namespace Nachos
open Buffer Execution

/-! ## Executables -/

/-- A file handed out by `FileSystem::Open`; its length is an `int`. -/
structure Executable where
  bytes : List UInt8
  fits : (bytes.length : Int) ≤ intMax

abbrev FileName := List UInt8

/-- The executables that `FileSystem::Open` finds. -/
abbrev Programs := FileName → Option Executable

/-- `OpenFile::ReadAt` of an executable at its contract: the bytes that reach the caller's buffer. -/
def Executable.readAt (f : Executable) (numBytes position : Int) : Call (List UInt8) :=
  if numBytes ≤ 0 ∨ position ≥ f.bytes.length then .ok []
  else if position < 0 then .error (.outOfBounds .buffer)
  else .ok ((f.bytes.drop position.toNat).take numBytes.toNat)

abbrev noffMagic : Int := 0xbadfad
abbrev noffHeaderSize : ℕ := 40
abbrev userStackSize : ℕ := 1024

structure Segment where
  virtualAddr : Int
  inFileAddr : Int
  size : Int
  deriving DecidableEq, Repr

structure NoffHeader where
  noffMagic : Int
  code : Segment
  initData : Segment
  uninitData : Segment
  deriving DecidableEq, Repr

def Segment.ofImage (m : Image) (pos : ℕ) : Segment where
  virtualAddr := (wordAt m pos).toInt
  inFileAddr := (wordAt m (pos + 4)).toInt
  size := (wordAt m (pos + 8)).toInt

def NoffHeader.ofImage (m : Image) : NoffHeader where
  noffMagic := (wordAt m 0).toInt
  code := Segment.ofImage m 4
  initData := Segment.ofImage m 16
  uninitData := Segment.ofImage m 28

/-- `m` with the bytes of a list at the offsets from `pos` on. -/
def store (m : Image) (pos : ℕ) (bytes : List UInt8) : Image :=
  copy m pos (fun o => bytes.getD o 0) bytes.length

/-- The header as the constructors read it: bytes past the end of the file keep what was there. -/
def NoffHeader.fetch (f : Executable) (junk : Image) : Call NoffHeader := do
  let bytes ← f.readAt noffHeaderSize 0
  return NoffHeader.ofImage (store junk 0 bytes)

/-- The size of the address space, stack included. -/
def NoffHeader.spaceSize (h : NoffHeader) : Int :=
  int32 (h.code.size + h.initData.size + h.uninitData.size + userStackSize)

/-! ## The state -/

structure AddrSpace where
  pageTable : PageTable
  numPages : ℕ
  filename : FileName
  noffH : NoffHeader
  onDisk : BitMap
  pageSector : ℕ → Int
  victumOffset : Int

/-- What the address spaces share. -/
structure Memory where
  availablePages : ℕ → Int
  availableSectors : BitMap
  mainMemory : Image
  disk : Disk

def AddrSpace.setEntry (a : AddrSpace) (v : ℕ) (entry : TranslationEntry) : AddrSpace :=
  { a with pageTable := Function.update a.pageTable v entry }

/-- `available_pages[frame]`. -/
def Memory.frameCount (m : Memory) (frame : Int) : Call Int :=
  if 0 ≤ frame ∧ frame < numPhysPages then .ok (m.availablePages frame.toNat)
  else .error (.outOfBounds .availablePages)

/-- `available_pages[frame] = count`. -/
def Memory.setFrameCount (m : Memory) (frame count : Int) : Call Memory :=
  if 0 ≤ frame ∧ frame < numPhysPages then
    .ok { m with availablePages := Function.update m.availablePages frame.toNat count }
  else .error (.outOfBounds .availablePages)

/-- Bytes stored at `mainMemory[start]`; no byte, no access. -/
def Memory.putBytes (m : Memory) (start : Int) (bytes : List UInt8) : Call Memory :=
  if bytes = [] then .ok m
  else if 0 ≤ start ∧ start + bytes.length ≤ memorySize then
    .ok { m with mainMemory := store m.mainMemory start.toNat bytes }
  else .error (.outOfBounds .mainMemory)

/-- `bzero(&mainMemory[start], len)`. -/
def Memory.bzero (m : Memory) (start len : Int) : Call Memory :=
  m.putBytes start (List.replicate len.toNat 0)

/-! ## Constructors -/

/-- A page table entry before its page was ever loaded. -/
def TranslationEntry.absent (v : ℕ) : TranslationEntry where
  virtualPage := v
  physicalPage := -1
  valid := false
  readOnly := false
  use := false
  dirty := false

/-- "Virtual page # = phys page #." -/
def TranslationEntry.identity (v : ℕ) : TranslationEntry :=
  { TranslationEntry.absent v with physicalPage := v, valid := true }

/-- `AddrSpace::AddrSpace(char*)`. For a file that is found, `strcpy` writes the closing 0 of its name
one byte behind `new char[strlen(name)]`; the model takes this write to be harmless. -/
def AddrSpace.construct (fs : Programs) (junk : Image) (words : ℕ → BitVec 32)
    (name : FileName) : Call AddrSpace :=
  match fs name with
  | none => .error (.thrown 1)
  | some executable => do
    let noffH ← NoffHeader.fetch executable junk
    if noffH.noffMagic ≠ noffMagic then .error (.thrown 1)
    else
      let numPages := divRoundUp noffH.spaceSize pageSize
      -- the comparison is unsigned, so a negative number of pages fails it
      if 0 ≤ numPages ∧ numPages ≤ numPhysPages then do
        let onDisk ← BitMap.new words numPages
        return { pageTable := TranslationEntry.absent, numPages := numPages.toNat, filename := name,
                 noffH := noffH, onDisk := onDisk, pageSector := fun _ => -1, victumOffset := 0 }
      else .error .assertFailed

/-- A segment copied in whole by `AddrSpace::AddrSpace(OpenFile*)`. -/
def copySegment (executable : Executable) (m : Memory) (seg : Segment) : Call Memory :=
  if seg.size > 0 then do
    let bytes ← executable.readAt seg.size seg.inFileAddr
    m.putBytes seg.virtualAddr bytes
  else .ok m

/-- `AddrSpace::AddrSpace(OpenFile*)`: the page table with its size, and the memory. -/
def AddrSpace.constructEager (executable : Executable) (junk : Image) (m : Memory) :
    Call (ℕ × PageTable × Memory) := do
  let noffH ← NoffHeader.fetch executable junk
  if noffH.noffMagic ≠ noffMagic then .error .assertFailed
  else
    let numPages := divRoundUp (toUnsigned noffH.spaceSize) pageSize
    if numPages ≤ numPhysPages then do
      let m ← m.bzero 0 (numPages * pageSize)
      let m ← copySegment executable m noffH.code
      let m ← copySegment executable m noffH.initData
      return (numPages.toNat, TranslationEntry.identity, m)
    else .error .assertFailed

/-! ## Swapping out -/

/-- `AddrSpace::readPage`. -/
def readPage (m : Memory) (a : AddrSpace) (physicalPage virtualPage : Int) : Call (Int × Memory) :=
  if 0 ≤ virtualPage ∧ virtualPage < a.numPages then
    let sector := a.pageSector virtualPage.toNat
    if sector < 0 ∨ sector ≥ numSectors then .ok (-1, m)
    else do
      let data ← readSector m.disk sector
      let m ← m.putBytes (physicalPage * pageSize) ((List.range sectorSize).map data)
      return (sector, m)
  else .error (.outOfBounds .pageSector)

/-- The swap sector of a page: the one it has, or a free one. -/
def swapSector (m : Memory) (a : AddrSpace) (v : ℕ) : Call (Int × AddrSpace × Memory) :=
  let sector := a.pageSector v
  if sector < 0 ∨ sector ≥ numSectors then do
    let (sector, availableSectors) ← m.availableSectors.find
    if sector ≥ 0 then
      let availableSectors ← availableSectors.mark sector
      return (sector, { a with pageSector := Function.update a.pageSector v sector },
        { m with availableSectors := availableSectors })
    else .error .assertFailed
  else .ok (sector, a, m)

/-- `AddrSpace::writePage`. -/
def writePage (m : Memory) (a : AddrSpace) (physicalPage virtualPage : Int) :
    Call (Int × AddrSpace × Memory) :=
  if 0 ≤ virtualPage ∧ virtualPage < a.numPages then do
    let (sector, a, m) ← swapSector m a virtualPage.toNat
    if 0 ≤ physicalPage ∧ physicalPage < numPhysPages then do
      let disk ← writeSector m.disk sector (shift m.mainMemory (physicalPage.toNat * pageSize))
      return (sector, a, { m with disk := disk })
    else .error (.outOfBounds .mainMemory)
  else .error (.outOfBounds .pageSector)

/-- The variables of the loop of `try_store_page`, with the page table whose use bits it clears. -/
structure VictimScan where
  pageTable : PageTable
  bestPage : ℕ
  bestUsed : Bool
  unusedOffset : Int

/-- Non-read-only shared memory. -/
def sharedFrame (m : Memory) (entry : TranslationEntry) : Call Bool :=
  if entry.readOnly then .ok false
  else do
    let count ← m.frameCount entry.physicalPage
    return decide (count > 1)

/-- The use bits are cleared until an unused page is found. -/
def VictimScan.noteUse (s : VictimScan) (curr : ℕ) : VictimScan :=
  if s.unusedOffset < 0 then
    if (s.pageTable curr).use then
      { s with pageTable := Function.update s.pageTable curr { s.pageTable curr with use := false } }
    else { s with unusedOffset := curr }
  else s

/-- The loop of `try_store_page` from step `i` on, with `n` steps to go. -/
def scanVictims (m : Memory) (numPages : ℕ) (victumOffset : Int) : ℕ → ℕ → VictimScan → Call VictimScan
  | 0, _, s => .ok s
  | n + 1, i, s =>
    let curr := toUnsigned (victumOffset + i) % numPages
    let currUsed := (s.pageTable curr).use
    if ¬ (s.pageTable curr).valid then scanVictims m numPages victumOffset n (i + 1) s
    else do
      let s := s.noteUse curr
      let best := s.pageTable s.bestPage
      let better := { s with bestPage := curr, bestUsed := currUsed }
      if ← sharedFrame m best then scanVictims m numPages victumOffset n (i + 1) better
      else if best.readOnly ∧ ¬ (s.pageTable curr).readOnly then
        scanVictims m numPages victumOffset n (i + 1) better
      else if best.dirty ∧ ¬ (s.pageTable curr).dirty then
        scanVictims m numPages victumOffset n (i + 1) better
      else if s.bestUsed ∧ ¬ currUsed then .ok better
      else scanVictims m numPages victumOffset n (i + 1) s

/-- The frame of page `v` given up. -/
def releaseFrame (m : Memory) (a : AddrSpace) (v : ℕ) : Call (Int × AddrSpace × Memory) := do
  let rtn := (a.pageTable v).physicalPage
  let m ← m.setFrameCount rtn 0
  return (rtn, a.setEntry v { a.pageTable v with physicalPage := -1 }, m)

/-- A chosen page `v` pushed out of memory. -/
def pushOut (m : Memory) (a : AddrSpace) (v : ℕ) : Call (Int × AddrSpace × Memory) :=
  let best := a.pageTable v
  if best.dirty ∨ best.readOnly then do
    let (_, a, m) ← writePage m a best.physicalPage best.virtualPage
    let a := a.setEntry v { best with valid := false, physicalPage := -1 }
    if best.readOnly then do
      -- the entry's frame number is `-1` by now
      let count ← m.frameCount (a.pageTable v).physicalPage
      let m ← m.setFrameCount (a.pageTable v).physicalPage (count - 1)
      return (-1, a.setEntry v { a.pageTable v with readOnly := false }, m)
    else releaseFrame m a v
  else releaseFrame m a v

/-- `AddrSpace::try_store_page`. -/
def tryStorePage (m : Memory) (a : AddrSpace) : Call (Int × AddrSpace × Memory) :=
  if 0 ≤ a.victumOffset ∧ a.victumOffset < a.numPages then do
    let s ← scanVictims m a.numPages a.victumOffset (a.numPages - 1) 1
      { pageTable := a.pageTable, bestPage := a.victumOffset.toNat, bestUsed := false, unusedOffset := -1 }
    let a := { a with pageTable := s.pageTable }
    if ← sharedFrame m (a.pageTable s.bestPage) then return (-1, a, m)
    else pushOut m { a with victumOffset := s.unusedOffset } s.bestPage
  else .error (.outOfBounds .pageTable)

/-- `AddrSpace::store_page`, for at most `fuel` rounds. -/
def storePage : ℕ → Memory → AddrSpace → Call (Int × AddrSpace × Memory)
  | 0, _, _ => .error .outOfFuel
  | fuel + 1, m, a => do
    let (rtn, a, m) ← tryStorePage m a
    if rtn = -1 then storePage fuel m a else return (rtn, a, m)

/-! ## Loading -/

/-- The part of a segment that `load_page` reads into a page: the test that the page has one. -/
def Segment.OnPage (seg : Segment) (virtPage : Int) : Prop :=
  seg.size > 0 ∧ virtPage ≥ seg.virtualAddr.tdiv pageSize ∧
    virtPage ≤ (int32 (seg.virtualAddr + seg.size)).tdiv pageSize

instance (seg : Segment) (virtPage : Int) : Decidable (seg.OnPage virtPage) :=
  inferInstanceAs (Decidable (_ ∧ _ ∧ _))

/-- Where in memory it starts. -/
def Segment.start (seg : Segment) (virtPage physicalPage : Int) : Int :=
  if virtPage = seg.virtualAddr.tdiv pageSize then
    physicalPage * pageSize + seg.virtualAddr.tmod pageSize
  else physicalPage * pageSize

/-- Where in the file it starts. -/
def Segment.fileOffset (seg : Segment) (virtPage : Int) : Int :=
  if virtPage = seg.virtualAddr.tdiv pageSize then seg.inFileAddr
  else int32 (seg.inFileAddr + (virtPage * pageSize - seg.virtualAddr))

/-- "Only read into this page (not the one after)." -/
def clipEnd (physicalPage segEnd : Int) : Int :=
  if segEnd.tdiv pageSize ≠ physicalPage then (physicalPage + 1) * pageSize else segEnd

def codeEnd (code : Segment) (virtPage physicalPage : Int) : Int :=
  clipEnd physicalPage (int32 (code.start virtPage physicalPage + code.size))

/-- The data segment's own formula: the file offset is subtracted from the end. -/
def dataEnd (initData : Segment) (virtPage physicalPage : Int) : Int :=
  clipEnd physicalPage
    (int32 (initData.start virtPage physicalPage + initData.size - initData.fileOffset virtPage))

/-- One segment of `load_page`, with the end computed by its own formula; `none` if the executable
cannot be opened. -/
def loadSegment (fs : Programs) (m : Memory) (a : AddrSpace) (seg : Segment)
    (segmentEnd : Segment → Int → Int → Int) (virtPage physicalPage : Int) : Call (Option Memory) :=
  if seg.OnPage virtPage then
    match fs a.filename with
    | none => .ok none
    | some executable => do
      let start := seg.start virtPage physicalPage
      let bytes ← executable.readAt (segmentEnd seg virtPage physicalPage - start)
        (seg.fileOffset virtPage)
      let m ← m.putBytes start bytes
      return some m
  else .ok (some m)

/-- The first free frame. -/
def firstFree (m : Memory) : Option ℕ :=
  (List.range numPhysPages).find? fun i => m.availablePages i = 0

/-- A frame for page `v`: a free one if there is one; else the one it has, or a victim's. -/
def takeFrame (fuel : ℕ) (m : Memory) (a : AddrSpace) (v : ℕ) : Call (AddrSpace × Memory) :=
  match firstFree m with
  | some i =>
    .ok (a.setEntry v { a.pageTable v with physicalPage := i },
      { m with availablePages := Function.update m.availablePages i 1 })
  | none =>
    if (a.pageTable v).physicalPage = -1 then do
      let (frame, a, m) ← storePage fuel m a
      let m ← m.setFrameCount frame 1
      return (a.setEntry v { a.pageTable v with physicalPage := frame, use := true }, m)
    else .ok (a, m)

/-- The contents of a page that has its frame: from the swap, or from the executable. -/
def fillPage (fs : Programs) (m : Memory) (a : AddrSpace) (v : ℕ) :
    Call (Int × AddrSpace × Memory) := do
  let page := a.pageTable v
  if ← a.onDisk.test v then
    let (_, m) ← readPage m a page.physicalPage page.virtualPage
    return (-1, a, m)
  else
    let m ← m.bzero (page.physicalPage * pageSize) pageSize
    match ← loadSegment fs m a a.noffH.code codeEnd v page.physicalPage with
    | none => return (-1, a, m)
    | some m =>
      match ← loadSegment fs m a a.noffH.initData dataEnd v page.physicalPage with
      | none => return (-1, a, m)
      | some m => return (page.physicalPage, a.setEntry v { page with valid := true }, m)

/-- `AddrSpace::load_page`. -/
def loadPage (fs : Programs) (fuel : ℕ) (m : Memory) (a : AddrSpace)
    (virtPage : Int) : Call (Int × AddrSpace × Memory) :=
  if virtPage ≥ a.numPages ∨ virtPage < 0 then .ok (-1, a, m)
  else if (a.pageTable virtPage.toNat).virtualPage ≠ virtPage then .ok (-1, a, m)
  else if (a.pageTable virtPage.toNat).valid then
    .ok ((a.pageTable virtPage.toNat).physicalPage, a, m)
  else do
    let (a, m) ← takeFrame fuel m a virtPage.toNat
    fillPage fs m a virtPage.toNat

/-! ## Access from the kernel -/

/-- A routine that is called to load a page. -/
abbrev Loader := Memory → AddrSpace → Int → Call (Int × AddrSpace × Memory)

/-- The page at index `v` is loaded unless it is there. -/
def ensureLoaded (load : Loader) (m : Memory) (a : AddrSpace) (v : ℕ) : Call (AddrSpace × Memory) :=
  if (a.pageTable v).valid = false ∨ (a.pageTable v).physicalPage = -1 then do
    let (_, a, m) ← load m a v
    return (a, m)
  else .ok (a, m)

/-- The physical address of a virtual one, as `AddrSpace::read` and `AddrSpace::write` find it. -/
def locate (load : Loader) (m : Memory) (a : AddrSpace) (addr : Int) : Call (ℕ × AddrSpace × Memory) :=
  let virtPage := addr.tdiv pageSize
  if 0 ≤ virtPage ∧ virtPage < a.numPages then do
    let (a, m) ← ensureLoaded load m a virtPage.toNat
    let phys := (a.pageTable virtPage.toNat).physicalPage * pageSize + addr.tmod pageSize
    if 0 ≤ phys ∧ phys < memorySize then return (phys.toNat, a, m)
    else .error (.outOfBounds .mainMemory)
  else .error (.outOfBounds .pageTable)

/-- The most bytes one call moves. -/
abbrev bufferSize : ℕ := 1000

/-- The loop of `AddrSpace::read` from byte `i` on, with room for `n` more. -/
def readFrom (load : Loader) (addr bytes : Int) :
    ℕ → ℕ → Memory → AddrSpace → Call (List UInt8 × AddrSpace × Memory)
  | 0, _, m, a => .ok ([], a, m)
  | n + 1, i, m, a =>
    if bytes = 0 ∨ i < bytes then do
      let (phys, a, m) ← locate load m a (int32 (addr + i))
      let c := m.mainMemory phys
      if bytes = 0 ∧ c = 0 then return ([c], a, m)
      else
        let (rest, a, m) ← readFrom load addr bytes n (i + 1) m a
        return (c :: rest, a, m)
    else .ok ([], a, m)

/-- `AddrSpace::read`: the bytes put into `buf`. -/
def AddrSpace.read (load : Loader) (m : Memory) (a : AddrSpace) (addr bytes : Int) :
    Call (List UInt8 × AddrSpace × Memory) :=
  readFrom load addr bytes bufferSize 0 m a

def Memory.setByte (m : Memory) (phys : ℕ) (c : UInt8) : Memory :=
  { m with mainMemory := Function.update m.mainMemory phys c }

/-- The loop of `AddrSpace::write`. -/
def writeFrom (load : Loader) (addr : Int) (str : Image) (bytes : Int) :
    ℕ → ℕ → Memory → AddrSpace → Call (AddrSpace × Memory)
  | 0, _, m, a => .ok (a, m)
  | n + 1, i, m, a =>
    if bytes = 0 ∨ i < bytes then do
      let (phys, a, m) ← locate load m a (int32 (addr + i))
      let m := m.setByte phys (str i)
      if bytes = 0 ∧ str i = 0 then return (a, m)
      else writeFrom load addr str bytes n (i + 1) m a
    else .ok (a, m)

/-- `AddrSpace::write`. -/
def AddrSpace.write (load : Loader) (m : Memory) (a : AddrSpace) (addr : Int) (str : Image)
    (bytes : Int) : Call (AddrSpace × Memory) :=
  writeFrom load addr str bytes bufferSize 0 m a

end Nachos
