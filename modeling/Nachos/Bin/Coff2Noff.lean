import Nachos.Userprog.AddrSpace

/-! # From COFF to NOFF (`bin/coff2noff.c`)

`coff2noff` goes over the sections of a COFF file once. It copies `.text` and `.data` (or `.rdata`) behind the header
of the NOFF file and notes where they go; `.bss` and `.sbss` have no bytes and are merged into one segment. The test for
the merge is the wrong way round: a section that starts where the segment ends so far is refused, any other one only
makes the segment longer. -/
set_option autoImplicit false

namespace Nachos
open Buffer Execution

/-! ## Sections -/

/-- What a section name stands for. -/
inductive SectionKind where
  | text
  | data
  | zero
  | unknown
  deriving DecidableEq, Repr

/-- `struct scnhdr`, the fields that are read. -/
structure SectionHeader where
  sName : List UInt8
  sPaddr : Int
  sSize : Int
  sScnptr : Int
  deriving DecidableEq, Repr

def cString (s : List Char) : List UInt8 := s.map fun c => UInt8.ofNat c.toNat

/-- `!strcmp(s_name, name)`. -/
def SectionHeader.named (s : SectionHeader) (name : List Char) : Bool :=
  s.sName.takeWhile (· ≠ 0) = cString name

def SectionHeader.kind (s : SectionHeader) : SectionKind :=
  if s.named ['.', 't', 'e', 'x', 't'] then .text
  else if s.named ['.', 'd', 'a', 't', 'a'] || s.named ['.', 'r', 'd', 'a', 't', 'a'] then .data
  else if s.named ['.', 'b', 's', 's'] || s.named ['.', 's', 'b', 's', 's'] then .zero
  else .unknown

/-! ## The program -/

/-- How a conversion ends without a NOFF file. -/
inductive ConvertError where
  | shortFile
  | unableToWrite
  | dataAndRdata
  | bssAndSbss
  | unknownSegment (name : List UInt8)
  /-- A count below zero handed to `read`, or a signed overflow. -/
  | undefined
  deriving DecidableEq, Repr

/-- What is printed. -/
def ConvertError.message : ConvertError → Option (List UInt8)
  | .shortFile => some "File is too short\n".toUTF8.toList
  | .unableToWrite => some "Unable to write file\n".toUTF8.toList
  | .dataAndRdata => some "Can't handle both data and rdata\n".toUTF8.toList
  | .bssAndSbss => some "Can't handle both bss and sbss\n".toUTF8.toList
  | .unknownSegment name => some ("Unknown segment type: ".toUTF8.toList ++ name ++ "\n".toUTF8.toList)
  | .undefined => none

/-- The variables of the loop over the sections: the header, the two file positions, and what stands behind the header
in the NOFF file. -/
structure Conversion where
  noffH : NoffHeader
  inNoffFile : Int
  posIn : ℕ
  written : List UInt8
  place : inNoffFile = noffHeaderSize + written.length
  fits : inNoffFile ≤ intMax

/-- "Initialize the NOFF header, in case not all the segments are defined in the COFF file": the other fields are those
of a variable that was never set. -/
def Conversion.start (junk : Image) (posIn : ℕ) : Conversion where
  noffH :=
    let h := NoffHeader.ofImage junk
    { noffMagic := noffMagic, code := { h.code with size := 0 }, initData := { h.initData with size := 0 },
      uninitData := { h.uninitData with size := 0 } }
  inNoffFile := noffHeaderSize
  posIn := posIn
  written := []
  place := rfl
  fits := by decide

/-- `lseek(fd, offset, 0)`, whose failure goes unnoticed. -/
def seek (pos : ℕ) (offset : Int) : ℕ := if 0 ≤ offset then offset.toNat else pos

/-- The state after `Write(fdOut, buffer, …)`. -/
def Conversion.write (c : Conversion) (noffH : NoffHeader) (posIn : ℕ) (buffer : List UInt8)
    (h : c.inNoffFile + buffer.length ≤ intMax) : Conversion where
  noffH := noffH
  inNoffFile := c.inNoffFile + buffer.length
  posIn := posIn + buffer.length
  written := c.written ++ buffer
  place := by rw [c.place, List.length_append]; omega
  fits := h

/-- The bytes of a section read from the COFF file and written to the NOFF file, which ends by `INT_MAX`. -/
def copySection (coff : List UInt8) (c : Conversion) (s : SectionHeader) (enter : Segment → NoffHeader) :
    Except ConvertError Conversion :=
  if s.sSize < 0 then .error .undefined
  else
    let posIn := seek c.posIn s.sScnptr
    let buffer := (coff.drop posIn).take s.sSize.toNat
    if buffer.length ≠ s.sSize.toNat then .error .shortFile
    else if h : c.inNoffFile + buffer.length ≤ intMax then
      .ok (c.write (enter ⟨s.sPaddr, c.inNoffFile, s.sSize⟩) posIn buffer h)
    else .error .unableToWrite

/-- The value of an `int` expression. -/
def checkedInt (x : Int) : Except ConvertError Int :=
  if -2147483648 ≤ x ∧ x ≤ intMax then .ok x else .error .undefined

/-- A section of zeros added to the segment so far. -/
def mergeZero (u : Segment) (s : SectionHeader) : Except ConvertError Segment :=
  if u.size ≠ 0 then do
    let stop ← checkedInt (u.virtualAddr + u.size)
    if s.sPaddr = stop then .error .bssAndSbss
    else
      let size ← checkedInt (u.size + s.sSize)
      return { u with size := size }
  else .ok { u with virtualAddr := s.sPaddr, size := s.sSize }

/-- One round of the loop. -/
def convertSection (coff : List UInt8) (c : Conversion) (s : SectionHeader) : Except ConvertError Conversion :=
  if s.sSize = 0 then .ok c
  else
    match s.kind with
    | .text => copySection coff c s fun seg => { c.noffH with code := seg }
    | .data =>
      if c.noffH.initData.size ≠ 0 then .error .dataAndRdata
      else copySection coff c s fun seg => { c.noffH with initData := seg }
    | .zero => do
      let u ← mergeZero c.noffH.uninitData s
      return { c with noffH := { c.noffH with uninitData := u } }
    | .unknown => .error (.unknownSegment (s.sName.takeWhile (· ≠ 0)))

/-- The ten words of the header. -/
def NoffHeader.field (h : NoffHeader) : ℕ → Int
  | 0 => h.noffMagic
  | 1 => h.code.virtualAddr
  | 2 => h.code.inFileAddr
  | 3 => h.code.size
  | 4 => h.initData.virtualAddr
  | 5 => h.initData.inFileAddr
  | 6 => h.initData.size
  | 7 => h.uninitData.virtualAddr
  | 8 => h.uninitData.inFileAddr
  | 9 => h.uninitData.size
  | _ => 0

def NoffHeader.toBytes (h : NoffHeader) : List UInt8 :=
  (List.range noffHeaderSize).map (ofWords fun k => BitVec.ofInt 32 (h.field k))

@[simp] theorem NoffHeader.length_toBytes (h : NoffHeader) : h.toBytes.length = noffHeaderSize := by
  simp [NoffHeader.toBytes]

/-- The NOFF file. -/
def Conversion.output (c : Conversion) : Executable where
  bytes := c.noffH.toBytes ++ c.written
  fits := by
    have hplace := c.place
    have hfits := c.fits
    rw [List.length_append, NoffHeader.length_toBytes]
    omega

/-- The conversion, from the section headers on; they end at offset `posIn` of the COFF file. -/
def coff2noff (coff : List UInt8) (junk : Image) (posIn : ℕ) (sections : List SectionHeader) :
    Except ConvertError Executable := do
  let c ← sections.foldlM (convertSection coff) (Conversion.start junk posIn)
  return c.output

end Nachos
