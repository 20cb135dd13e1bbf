import Nachos.Bin.Coff2Noff
import Nachos.Userprog.DemandLoading

/-! # What `coff2noff` makes of a program

A section list describes a memory image. The header of a NOFF file describes one too, and the conversion is right if
the second holds every byte of the first. It is for the code and the data; the sections of zeros come out right if
there is at most one. -/
set_option autoImplicit false

namespace Nachos
open Buffer Execution

variable {l zs : List SectionHeader} {u seg : Segment}

/-! ## Memory images -/

def SectionHeader.Covers (s : SectionHeader) (x : Int) : Prop := s.sPaddr ≤ x ∧ x < s.sPaddr + s.sSize

/-- What section `s` asks for: memory `img` has its bytes at its place. -/
structure SectionHeader.In (s : SectionHeader) (coff : List UInt8) (img : Int → UInt8) : Prop where
  nonneg : 0 ≤ s.sSize
  size : s.sSize ≤ intMax
  first : -2147483648 ≤ s.sPaddr
  last : s.sPaddr + s.sSize ≤ intMax
  raw : s.kind ≠ .zero → 0 ≤ s.sScnptr ∧ s.sScnptr + s.sSize ≤ coff.length
  byte : ∀ x, s.Covers x →
    img x = if s.kind = .zero then 0 else coff.getD (s.sScnptr + (x - s.sPaddr)).toNat 0

/-- Memory `img` is what the sections describe. -/
def IsImage (coff : List UInt8) (sections : List SectionHeader) (img : Int → UInt8) : Prop :=
  ∀ s ∈ sections, s.sSize ≠ 0 → s.In coff img

def Segment.Spans (seg : Segment) (x : Int) : Prop := seg.virtualAddr ≤ x ∧ x < seg.virtualAddr + seg.size

instance (seg : Segment) (x : Int) : Decidable (seg.Spans x) := inferInstanceAs (Decidable (_ ∧ _))

/-- Memory as the header of a NOFF file describes it: zeros, over them the code, over it the data. -/
def NoffHeader.memoryByte (h : NoffHeader) (f : Executable) (x : Int) : Option UInt8 :=
  if h.initData.Spans x then some (f.bytes.getD (h.initData.inFileAddr + (x - h.initData.virtualAddr)).toNat 0)
  else if h.code.Spans x then some (f.bytes.getD (h.code.inFileAddr + (x - h.code.virtualAddr)).toNat 0)
  else if h.uninitData.Spans x then some 0
  else none

/-- A NOFF file loaded by its header. -/
def loadNoff (f : Executable) : Int → Option UInt8 :=
  (NoffHeader.ofImage fun o => f.bytes.getD o 0).memoryByte f

/-- This is the image that the kernel loads. -/
theorem imageByte_of_loadNoff {f : Executable} {x : ℕ} {b : UInt8} (h : loadNoff f x = some b) :
    (NoffHeader.ofImage fun o => f.bytes.getD o 0).imageByte f x = b := by
  have hspans : ∀ seg : Segment, seg.Spans x = seg.Covers x := fun seg => rfl
  unfold loadNoff NoffHeader.memoryByte at h
  unfold NoffHeader.imageByte
  simp only [hspans] at h
  split at h
  · next hdata =>
    rw [if_pos hdata]
    exact Option.some.inj h
  · next hdata =>
    rw [if_neg hdata]
    split at h
    · next hcode =>
      rw [if_pos hcode]
      exact Option.some.inj h
    · next hcode =>
      rw [if_neg hcode]
      split at h
      · exact Option.some.inj h
      · cases h

/-! ## The conversion against the image -/

/-- The non-empty sections of one kind. -/
def ofKind (k : SectionKind) (sections : List SectionHeader) : List SectionHeader :=
  sections.filter fun s => s.sSize ≠ 0 ∧ s.kind = k

/-- At most one non-empty `.text` and one of `.data` and `.rdata`, and for the rest `.bss` and `.sbss`. -/
structure Convertible (sections : List SectionHeader) : Prop where
  known : ∀ s ∈ sections, s.sSize ≠ 0 → s.kind ≠ .unknown
  text : (ofKind .text sections).length ≤ 1
  data : (ofKind .data sections).length ≤ 1

def totalSize (sections : List SectionHeader) : Int := (sections.map SectionHeader.sSize).sum

/-- The bytes to be copied fit in a file. -/
def Writable (sections : List SectionHeader) : Prop :=
  noffHeaderSize + totalSize (ofKind .text sections) + totalSize (ofKind .data sections) ≤ intMax

instance (sections : List SectionHeader) : Decidable (Writable sections) := inferInstanceAs (Decidable (_ ≤ _))

/-- Every section starts where the one before ends. -/
def Adjacent (sections : List SectionHeader) : Prop :=
  sections.IsChain fun s t => t.sPaddr = s.sPaddr + s.sSize

instance (sections : List SectionHeader) : Decidable (Adjacent sections) :=
  inferInstanceAs (Decidable (List.IsChain _ sections))

/-- A file that is made holds every section at its place, and adjacent sections of zeros are accepted. -/
def PreservesImage (coff : List UInt8) (junk : Image) (posIn : ℕ) (sections : List SectionHeader) (img : Int → UInt8) :
    Prop :=
  (∀ out, coff2noff coff junk posIn sections = .ok out →
    ∀ s ∈ sections, s.sSize ≠ 0 → ∀ x, s.Covers x → loadNoff out x = some (img x)) ∧
  (Writable sections → Adjacent (ofKind .zero sections) → Returns (coff2noff coff junk posIn sections))

/-- Where the segment ends that sections are merged into: as many bytes from the start of the first one as they have
together. -/
def mergedEnd : List SectionHeader → Int
  | [] => 0
  | z :: zs => z.sPaddr + totalSize (z :: zs)

/-- What section `z` has to satisfy to be accepted after the sections `done`: if it is one of zeros, it does not start
where those before it would end if each followed the one before, and the sums are `int`s. -/
def MayFollow (done : List SectionHeader) (z : SectionHeader) : Prop :=
  z.sSize ≠ 0 → z.kind = .zero → ofKind .zero done ≠ [] → z.sPaddr ≠ mergedEnd (ofKind .zero done) ∧
    mergedEnd (ofKind .zero done) ≤ intMax ∧ totalSize (ofKind .zero done) + z.sSize ≤ intMax

def PassesTest (sections : List SectionHeader) : Prop :=
  ∀ pre z post, sections = pre ++ z :: post → MayFollow pre z

/-- Every byte of the zero data is in the merged segment, or belongs to another section as well. -/
def Covered (sections : List SectionHeader) : Prop :=
  ∀ z zs, ofKind .zero sections = z :: zs → ∀ t ∈ z :: zs, ∀ x, t.Covers x →
    z.sPaddr ≤ x ∧ x < mergedEnd (z :: zs) ∨ ∃ s ∈ ofKind .text sections ++ ofKind .data sections, s.Covers x

/-! ### One section -/

theorem ofKind_append (k : SectionKind) (done : List SectionHeader) (s : SectionHeader) :
    ofKind k (done ++ [s]) = if s.sSize ≠ 0 ∧ s.kind = k then ofKind k done ++ [s] else ofKind k done := by
  unfold ofKind
  rw [List.filter_append, List.filter_singleton]
  split
  · next h => rw [decide_eq_true h, cond_true]
  · next h => rw [decide_eq_false h, cond_false, List.append_nil]

@[simp] theorem totalSize_append (l : List SectionHeader) (s : SectionHeader) :
    totalSize (l ++ [s]) = totalSize l + s.sSize := by
  simp [totalSize]

theorem totalSize_nonneg (h : ∀ s ∈ l, 0 < s.sSize) : 0 ≤ totalSize l := by
  induction l with
  | nil => exact le_refl 0
  | cons s l ih =>
    have htail := ih fun t ht => h t (List.mem_cons_of_mem s ht)
    have hhead := h s List.mem_cons_self
    have hsum : totalSize (s :: l) = s.sSize + totalSize l := List.sum_cons
    omega

theorem totalSize_pos {z : SectionHeader} (h : ∀ s ∈ z :: l, 0 < s.sSize) : 0 < totalSize (z :: l) := by
  have htail := totalSize_nonneg fun s hs => h s (List.mem_cons_of_mem z hs)
  have hhead := h z List.mem_cons_self
  have hsum : totalSize (z :: l) = z.sSize + totalSize l := List.sum_cons
  omega

theorem mergedEnd_eq {z : SectionHeader} (hl : l = z :: zs) (haddr : u.virtualAddr = z.sPaddr)
    (hsize : u.size = totalSize l) : mergedEnd l = u.virtualAddr + u.size := by
  subst hl
  rw [haddr, hsize]
  rfl

section Step
variable {coff : List UInt8} {c c' : Conversion} {s : SectionHeader} {img : Int → UInt8} {done : List SectionHeader}

/-- The bytes of a section in the COFF file. -/
def SectionHeader.raw (s : SectionHeader) (coff : List UInt8) : List UInt8 :=
  (coff.drop s.sScnptr.toNat).take s.sSize.toNat

/-- The segment is none, or that of the first section of a list, with its bytes in the file. -/
def Segment.Holds (seg : Segment) (coff written : List UInt8) : List SectionHeader → Prop
  | [] => seg.size = 0
  | s :: _ => ∃ before after, written = before ++ s.raw coff ++ after ∧
      seg = ⟨s.sPaddr, noffHeaderSize + before.length, s.sSize⟩

theorem Segment.Holds.append {written : List UInt8} (h : seg.Holds coff written l)
    (buffer : List UInt8) : seg.Holds coff (written ++ buffer) l := by
  cases l with
  | nil => exact h
  | cons s l =>
    obtain ⟨before, after, rfl, hseg⟩ := h
    exact ⟨before, after ++ buffer, by simp, hseg⟩

/-- The segment that the sections of a list are merged into. -/
def Segment.Merges (seg : Segment) : List SectionHeader → Prop
  | [] => seg.size = 0
  | z :: zs => seg.virtualAddr = z.sPaddr ∧ seg.size = totalSize (z :: zs)

abbrev IsInt (x : Int) : Prop := -2147483648 ≤ x ∧ x ≤ intMax

structure Segment.Ints (seg : Segment) : Prop where
  virtualAddr : IsInt seg.virtualAddr
  inFileAddr : IsInt seg.inFileAddr
  size : IsInt seg.size

/-- The state of the loop after the sections `done`. -/
structure Conversion.Tracks (coff : List UInt8) (c : Conversion) (done : List SectionHeader) : Prop where
  code : c.noffH.code.Holds coff c.written (ofKind .text done)
  initData : c.noffH.initData.Holds coff c.written (ofKind .data done)
  uninitData : c.noffH.uninitData.Merges (ofKind .zero done)
  length : (c.written.length : Int) = totalSize (ofKind .text done) + totalSize (ofKind .data done)
  magic : c.noffH.noffMagic = noffMagic
  codeInts : c.noffH.code.Ints
  initDataInts : c.noffH.initData.Ints
  uninitDataInts : c.noffH.uninitData.Ints

theorem toInt_isInt (w : BitVec 32) : IsInt w.toInt := by
  have hlow := BitVec.le_toInt w
  have hhigh := BitVec.toInt_lt (x := w)
  simp only [IsInt, intMax]
  omega

theorem start_tracks (junk : Image) (posIn : ℕ) : (Conversion.start junk posIn).Tracks coff [] where
  code := rfl
  initData := rfl
  uninitData := rfl
  length := rfl
  magic := rfl
  codeInts := ⟨toInt_isInt _, toInt_isInt _, show IsInt 0 by decide⟩
  initDataInts := ⟨toInt_isInt _, toInt_isInt _, show IsInt 0 by decide⟩
  uninitDataInts := ⟨toInt_isInt _, toInt_isInt _, show IsInt 0 by decide⟩

theorem SectionHeader.In.seek (hs : s.In coff img) (hkind : s.kind ≠ .zero) (posIn : ℕ) :
    (coff.drop (seek posIn s.sScnptr)).take s.sSize.toNat = s.raw coff ∧ (s.raw coff).length = s.sSize.toNat := by
  obtain ⟨hptr, hend⟩ := hs.raw hkind
  have hsize := hs.nonneg
  refine ⟨by unfold Nachos.seek; rw [if_pos hptr]; rfl, ?_⟩
  unfold SectionHeader.raw
  rw [List.length_take, List.length_drop]
  omega

theorem copySection_returns (hs : s.In coff img) (hkind : s.kind ≠ .zero) (enter : Segment → NoffHeader)
    (hfits : c.inNoffFile + s.sSize ≤ intMax) : Returns (copySection coff c s enter) := by
  obtain ⟨hraw, hlen⟩ := hs.seek hkind c.posIn
  have hsize := hs.nonneg
  unfold copySection
  rw [if_neg (by omega)]
  dsimp only
  rw [hraw, if_neg (not_not.mpr hlen), dif_pos (by omega)]
  exact ⟨_, rfl⟩

theorem copySection_eq_ok (hs : s.In coff img) (hkind : s.kind ≠ .zero) {enter : Segment → NoffHeader}
    (h : copySection coff c s enter = .ok c') :
    c'.noffH = enter ⟨s.sPaddr, noffHeaderSize + c.written.length, s.sSize⟩ ∧ c'.written = c.written ++ s.raw coff := by
  obtain ⟨hraw, hlen⟩ := hs.seek hkind c.posIn
  have hsize := hs.nonneg
  unfold copySection at h
  rw [if_neg (by omega)] at h
  dsimp only at h
  rw [hraw, if_neg (not_not.mpr hlen)] at h
  split at h
  · cases h
    exact ⟨by rw [← c.place]; rfl, rfl⟩
  · cases h

theorem checkedInt_eq_ok {x y : Int} (h : checkedInt x = .ok y) : IsInt x ∧ y = x := by
  unfold checkedInt at h
  split at h
  · next hx =>
    cases h
    exact ⟨hx, rfl⟩
  · cases h

theorem checkedInt_of_isInt {x : Int} (h : IsInt x) : checkedInt x = .ok x := if_pos h

theorem Segment.Merges.append (hu : u.Merges zs) (hpos : ∀ z ∈ zs, 0 < z.sSize) {u' : Segment}
    (h : mergeZero u s = .ok u') :
    u'.Merges (zs ++ [s]) ∧ (zs ≠ [] → s.sPaddr ≠ mergedEnd zs ∧ IsInt (mergedEnd zs) ∧
      IsInt (totalSize zs + s.sSize)) := by
  unfold mergeZero at h
  cases zs with
  | nil =>
    have hsize : u.size = 0 := hu
    rw [if_neg (not_not.mpr hsize)] at h
    cases h
    exact ⟨⟨rfl, by simp [totalSize]⟩, fun hne => absurd rfl hne⟩
  | cons z zs =>
    obtain ⟨haddr, hsize⟩ := hu
    have hsum := totalSize_pos hpos
    have hend := mergedEnd_eq rfl haddr hsize
    rw [if_pos (by omega)] at h
    obtain ⟨stop, hstop, h⟩ := bind_eq_ok.mp h
    obtain ⟨hstop', rfl⟩ := checkedInt_eq_ok hstop
    split at h
    · cases h
    · next hne =>
      obtain ⟨size, hsize', h⟩ := bind_eq_ok.mp h
      obtain ⟨hsum', rfl⟩ := checkedInt_eq_ok hsize'
      cases h
      rw [hsize] at hsum'
      refine ⟨⟨haddr, ?_⟩, fun _ => ⟨by rw [hend]; exact hne, by rw [hend]; exact hstop', hsum'⟩⟩
      show u.size + s.sSize = totalSize ((z :: zs) ++ [s])
      rw [hsize, totalSize_append]

theorem Segment.Ints.mergeZero {u' : Segment} (hu : u.Ints) (hs : s.In coff img) (h : mergeZero u s = .ok u') :
    u'.Ints := by
  unfold Nachos.mergeZero at h
  split at h
  · obtain ⟨stop, -, h⟩ := bind_eq_ok.mp h
    split at h
    · cases h
    · obtain ⟨size, hsize, h⟩ := bind_eq_ok.mp h
      obtain ⟨hint, rfl⟩ := checkedInt_eq_ok hsize
      cases h
      exact ⟨hu.virtualAddr, hu.inFileAddr, hint⟩
  · cases h
    have hnonneg := hs.nonneg
    have hfirst := hs.first
    have hlast := hs.last
    exact ⟨⟨hfirst, by dsimp only; omega⟩, hu.inFileAddr, ⟨by dsimp only; omega, hs.size⟩⟩

theorem mergeZero_returns (hu : u.Merges zs) (hpos : ∀ z ∈ zs, 0 < z.sSize)
    (h : zs ≠ [] → s.sPaddr ≠ mergedEnd zs ∧ IsInt (mergedEnd zs) ∧ IsInt (totalSize zs + s.sSize)) :
    Returns (mergeZero u s) := by
  unfold mergeZero
  cases zs with
  | nil =>
    have hsize : u.size = 0 := hu
    rw [if_neg (not_not.mpr hsize)]
    exact ⟨_, rfl⟩
  | cons z zs =>
    obtain ⟨haddr, hsize⟩ := hu
    have hsum := totalSize_pos hpos
    have hend := mergedEnd_eq rfl haddr hsize
    obtain ⟨hne, hstop, hsum'⟩ := h (by simp)
    rw [hend] at hne hstop
    rw [if_pos (by omega), checkedInt_of_isInt hstop, ok_bind, if_neg hne, hsize, checkedInt_of_isInt hsum', ok_bind]
    exact ⟨_, rfl⟩

/-- The segment entered for a section whose bytes have just been written. -/
theorem copySection_holds (hs : s.In coff img) (hkind : s.kind ≠ .zero) {enter : Segment → NoffHeader}
    (h : copySection coff c s enter = .ok c') : ∃ seg : Segment, c'.noffH = enter seg ∧ seg.Ints ∧
      seg.Holds coff c'.written [s] ∧ c'.written = c.written ++ s.raw coff ∧
      (c'.written.length : Int) = c.written.length + s.sSize := by
  obtain ⟨hheader, hwritten⟩ := copySection_eq_ok hs hkind h
  obtain ⟨-, hlen⟩ := hs.seek hkind c.posIn
  obtain ⟨hsize, hfirst, hlast⟩ := And.intro hs.nonneg (And.intro hs.first hs.last)
  have hplace := c.place
  have hfits := c.fits
  have hplace' := c'.place
  have hfits' := c'.fits
  have hlen' : (c'.written.length : Int) = c.written.length + s.sSize := by
    rw [hwritten, List.length_append]
    omega
  refine ⟨_, hheader, ⟨⟨hfirst, ?_⟩, ⟨?_, ?_⟩, ⟨?_, ?_⟩⟩,
    ⟨c.written, [], by rw [hwritten, List.append_nil], rfl⟩, hwritten, hlen'⟩
  all_goals
    dsimp only
    omega

theorem ofKind_other {k : SectionKind} (h : s.kind ≠ k) : ofKind k (done ++ [s]) = ofKind k done := by
  rw [ofKind_append, if_neg fun hs => h hs.2]

theorem ofKind_own {k : SectionKind} (hsize : s.sSize ≠ 0) (h : s.kind = k) :
    ofKind k (done ++ [s]) = ofKind k done ++ [s] := by
  rw [ofKind_append, if_pos ⟨hsize, h⟩]

theorem ofKind_first {k : SectionKind} (hsize : s.sSize ≠ 0) (h : s.kind = k)
    (hone : (ofKind k (done ++ [s])).length ≤ 1) : ofKind k done = [] := by
  rw [ofKind_own hsize h, List.length_append, List.length_singleton] at hone
  exact List.eq_nil_of_length_eq_zero (by omega)

theorem mem_ofKind {k : SectionKind} : s ∈ ofKind k l ↔ s ∈ l ∧ s.sSize ≠ 0 ∧ s.kind = k := by
  simp [ofKind]

theorem IsImage.pos {sections : List SectionHeader} (himg : IsImage coff sections img) (k : SectionKind) :
    ∀ s ∈ ofKind k sections, 0 < s.sSize := by
  intro s hs
  obtain ⟨hmem, hsize, -⟩ := mem_ofKind.mp hs
  have hnonneg := (himg s hmem hsize).nonneg
  omega

theorem IsImage.left {l' : List SectionHeader} (himg : IsImage coff (l ++ l') img) : IsImage coff l img :=
  fun s hs => himg s (List.mem_append_left l' hs)

theorem Conversion.Tracks.text (hc : c.Tracks coff done) (hs : s.In coff img) (hsize : s.sSize ≠ 0)
    (hkind : s.kind = .text) (hone : (ofKind .text (done ++ [s])).length ≤ 1)
    (h : copySection coff c s (fun seg => { c.noffH with code := seg }) = .ok c') : c'.Tracks coff (done ++ [s]) := by
  have hnone := ofKind_first hsize hkind hone
  have hdata : ofKind .data (done ++ [s]) = _ := ofKind_other (by rw [hkind]; nofun)
  have hzero : ofKind .zero (done ++ [s]) = _ := ofKind_other (by rw [hkind]; nofun)
  obtain ⟨seg, hheader, hints, hholds, hwritten, hlen⟩ := copySection_holds hs (by rw [hkind]; nofun) h
  refine ⟨?_, ?_, ?_, ?_, ?_, ?_, ?_, ?_⟩
  · rw [hheader, ofKind_own hsize hkind, hnone]
    exact hholds
  · rw [hheader, hdata, hwritten]
    exact hc.initData.append _
  · rw [hheader, hzero]
    exact hc.uninitData
  · rw [hlen, hc.length, hdata, ofKind_own hsize hkind, totalSize_append]
    omega
  · rw [hheader]
    exact hc.magic
  · rw [hheader]
    exact hints
  · rw [hheader]
    exact hc.initDataInts
  · rw [hheader]
    exact hc.uninitDataInts

theorem Conversion.Tracks.data (hc : c.Tracks coff done) (hs : s.In coff img) (hsize : s.sSize ≠ 0)
    (hkind : s.kind = .data) (hone : (ofKind .data (done ++ [s])).length ≤ 1)
    (h : copySection coff c s (fun seg => { c.noffH with initData := seg }) = .ok c') :
    c'.Tracks coff (done ++ [s]) := by
  have hnone := ofKind_first hsize hkind hone
  have htext : ofKind .text (done ++ [s]) = _ := ofKind_other (by rw [hkind]; nofun)
  have hzero : ofKind .zero (done ++ [s]) = _ := ofKind_other (by rw [hkind]; nofun)
  obtain ⟨seg, hheader, hints, hholds, hwritten, hlen⟩ := copySection_holds hs (by rw [hkind]; nofun) h
  refine ⟨?_, ?_, ?_, ?_, ?_, ?_, ?_, ?_⟩
  · rw [hheader, htext, hwritten]
    exact hc.code.append _
  · rw [hheader, ofKind_own hsize hkind, hnone]
    exact hholds
  · rw [hheader, hzero]
    exact hc.uninitData
  · rw [hlen, hc.length, htext, ofKind_own hsize hkind, totalSize_append]
    omega
  · rw [hheader]
    exact hc.magic
  · rw [hheader]
    exact hc.codeInts
  · rw [hheader]
    exact hints
  · rw [hheader]
    exact hc.uninitDataInts

theorem Conversion.Tracks.zero (hc : c.Tracks coff done) (hs : s.In coff img) (hsize : s.sSize ≠ 0)
    (hkind : s.kind = .zero) (hpos : ∀ z ∈ ofKind .zero done, 0 < z.sSize)
    (h : mergeZero c.noffH.uninitData s = .ok u) :
    ({ c with noffH := { c.noffH with uninitData := u } } : Conversion).Tracks coff (done ++ [s]) := by
  have htext : ofKind .text (done ++ [s]) = _ := ofKind_other (by rw [hkind]; nofun)
  have hdata : ofKind .data (done ++ [s]) = _ := ofKind_other (by rw [hkind]; nofun)
  refine ⟨?_, ?_, ?_, ?_, hc.magic, hc.codeInts, hc.initDataInts, hc.uninitDataInts.mergeZero hs h⟩
  · rw [htext]
    exact hc.code
  · rw [hdata]
    exact hc.initData
  · rw [ofKind_own hsize hkind]
    exact (hc.uninitData.append hpos h).1
  · rw [htext, hdata]
    exact hc.length

/-- What the loop has done after one more section. -/
theorem convertSection_tracks (hc : c.Tracks coff done) (himg : IsImage coff (done ++ [s]) img)
    (hconv : Convertible (done ++ [s])) (h : convertSection coff c s = .ok c') : c'.Tracks coff (done ++ [s]) := by
  unfold convertSection at h
  split at h
  · next hsize =>
    cases h
    have hsame : ∀ k, ofKind k (done ++ [s]) = ofKind k done := fun k => by
      rw [ofKind_append, if_neg fun hne => hne.1 hsize]
    exact ⟨by rw [hsame]; exact hc.code, by rw [hsame]; exact hc.initData, by rw [hsame]; exact hc.uninitData,
      by rw [hsame, hsame]; exact hc.length, hc.magic, hc.codeInts, hc.initDataInts, hc.uninitDataInts⟩
  · next hsize =>
    have hs := himg s (by simp) hsize
    split at h
    · next hkind => exact hc.text hs hsize hkind hconv.text h
    · next hkind =>
      split at h
      · cases h
      · exact hc.data hs hsize hkind hconv.data h
    · next hkind =>
      obtain ⟨u, hu, h⟩ := bind_eq_ok.mp h
      cases h
      exact hc.zero hs hsize hkind (himg.left.pos .zero) hu
    · cases h

theorem IsImage.le_mergedEnd (himg : IsImage coff done img) (hne : ofKind .zero done ≠ []) :
    -2147483648 ≤ mergedEnd (ofKind .zero done) := by
  obtain ⟨z, zs, hzs⟩ := List.exists_cons_of_ne_nil hne
  have hpos := himg.pos .zero
  have hz : z ∈ ofKind .zero done := by simp [hzs]
  obtain ⟨hmem, hsize, -⟩ := mem_ofKind.mp hz
  have hfirst := (himg z hmem hsize).first
  rw [hzs] at hpos ⊢
  have hsum := totalSize_pos hpos
  show -2147483648 ≤ z.sPaddr + totalSize (z :: zs)
  omega

theorem convertSection_mayFollow (hc : c.Tracks coff done) (himg : IsImage coff (done ++ [s]) img)
    (h : convertSection coff c s = .ok c') : MayFollow done s := by
  intro hsize hkind hne
  unfold convertSection at h
  rw [if_neg hsize, hkind] at h
  obtain ⟨u, hu, -⟩ := bind_eq_ok.mp h
  obtain ⟨hapart, hend, hsum⟩ := (hc.uninitData.append (himg.left.pos .zero) hu).2 hne
  exact ⟨hapart, hend.2, hsum.2⟩

theorem convertSection_returns (hc : c.Tracks coff done) (himg : IsImage coff (done ++ [s]) img)
    (hconv : Convertible (done ++ [s])) (hfits : Writable (done ++ [s])) (hfollow : MayFollow done s) :
    Returns (convertSection coff c s) := by
  unfold convertSection
  split
  · exact ⟨_, rfl⟩
  · next hsize =>
    have hs := himg s (by simp) hsize
    have hlen := hc.length
    have hplace := c.place
    unfold Writable at hfits
    split
    · next hkind =>
      rw [ofKind_own hsize hkind, ofKind_other (by rw [hkind]; nofun), totalSize_append] at hfits
      exact copySection_returns hs (by rw [hkind]; nofun) _ (by omega)
    · next hkind =>
      rw [ofKind_own hsize hkind, ofKind_other (by rw [hkind]; nofun), totalSize_append] at hfits
      have hnone : c.noffH.initData.size = 0 := by
        have hholds := hc.initData
        rw [ofKind_first hsize hkind hconv.data] at hholds
        exact hholds
      rw [if_neg (not_not.mpr hnone)]
      exact copySection_returns hs (by rw [hkind]; nofun) _ (by omega)
    · next hkind =>
      have hpos := himg.left.pos .zero
      have hnonneg := totalSize_nonneg hpos
      obtain ⟨u, hu⟩ : Returns (mergeZero c.noffH.uninitData s) := mergeZero_returns hc.uninitData hpos fun hne => by
        obtain ⟨hapart, hend, hsum⟩ := hfollow hsize hkind hne
        have hstart := himg.left.le_mergedEnd hne
        have hsize := hs.nonneg
        exact ⟨hapart, ⟨hstart, hend⟩, ⟨by omega, hsum⟩⟩
      rw [hu]
      exact ⟨_, rfl⟩
    · next hkind => exact absurd hkind (hconv.known s (by simp) hsize)

end Step

/-! ### All sections -/

section Run
variable {coff : List UInt8} {c c' : Conversion} {img : Int → UInt8} {done rest sections : List SectionHeader}

theorem ofKind_split (k : SectionKind) (l l' : List SectionHeader) : ofKind k (l ++ l') = ofKind k l ++ ofKind k l' :=
  List.filter_append ..

theorem Convertible.left (h : Convertible (done ++ rest)) : Convertible done := by
  have htext := h.text
  have hdata := h.data
  rw [ofKind_split, List.length_append] at htext hdata
  exact ⟨fun s hs => h.known s (List.mem_append_left rest hs), by omega, by omega⟩

theorem Writable.left (himg : IsImage coff (done ++ rest) img) (h : Writable (done ++ rest)) : Writable done := by
  have hrest : ∀ k, 0 ≤ totalSize (ofKind k rest) := fun k =>
    totalSize_nonneg fun s hs => himg.pos k s (by rw [ofKind_split]; exact List.mem_append_right _ hs)
  have htext := hrest .text
  have hdata := hrest .data
  unfold Writable totalSize at *
  simp only [ofKind_split, List.map_append, List.sum_append] at h
  omega

/-- A run of the loop that comes to its end. -/
theorem convertSections_tracks (hc : c.Tracks coff done) (himg : IsImage coff (done ++ rest) img)
    (hconv : Convertible (done ++ rest)) (h : rest.foldlM (convertSection coff) c = .ok c') :
    c'.Tracks coff (done ++ rest) ∧ ∀ pre z post, rest = pre ++ z :: post → MayFollow (done ++ pre) z := by
  induction rest generalizing c done with
  | nil =>
    cases h
    exact ⟨by rw [List.append_nil]; exact hc, fun pre z post hsplit => by simp at hsplit⟩
  | cons s rest ih =>
    rw [List.append_cons] at himg hconv ⊢
    rw [List.foldlM_cons] at h
    obtain ⟨c1, hstep, h⟩ := bind_eq_ok.mp h
    obtain ⟨hend, hfollow⟩ := ih (convertSection_tracks hc himg.left hconv.left hstep) himg hconv h
    refine ⟨hend, fun pre z post hsplit => ?_⟩
    cases pre with
    | nil =>
      obtain ⟨rfl, -⟩ := List.cons.inj hsplit
      rw [List.append_nil]
      exact convertSection_mayFollow hc himg.left hstep
    | cons t pre =>
      obtain ⟨rfl, hrest⟩ := List.cons.inj hsplit
      rw [List.append_cons]
      exact hfollow pre z post hrest

theorem convertSections_returns (hc : c.Tracks coff done) (himg : IsImage coff (done ++ rest) img)
    (hconv : Convertible (done ++ rest)) (hfits : Writable (done ++ rest))
    (hfollow : ∀ pre z post, rest = pre ++ z :: post → MayFollow (done ++ pre) z) :
    Returns (rest.foldlM (convertSection coff) c) := by
  induction rest generalizing c done with
  | nil => exact ⟨c, rfl⟩
  | cons s rest ih =>
    have hfirst := hfollow [] s rest rfl
    rw [List.append_nil] at hfirst
    rw [List.append_cons] at himg hconv hfits
    obtain ⟨c1, hstep⟩ := convertSection_returns hc himg.left hconv.left (hfits.left himg) hfirst
    rw [List.foldlM_cons, hstep]
    refine ih (convertSection_tracks hc himg.left hconv.left hstep) himg hconv hfits fun pre z post hsplit => ?_
    have hnext := hfollow (s :: pre) z post (by rw [hsplit]; rfl)
    rw [List.append_cons] at hnext
    exact hnext

theorem coff2noff_eq_ok {junk : Image} {posIn : ℕ} {out : Executable} (himg : IsImage coff sections img)
    (hconv : Convertible sections) (h : coff2noff coff junk posIn sections = .ok out) :
    Writable sections ∧ PassesTest sections ∧ ∃ c : Conversion, c.Tracks coff sections ∧ out = c.output := by
  unfold coff2noff at h
  obtain ⟨c, hrun, h⟩ := bind_eq_ok.mp h
  cases h
  obtain ⟨htracks, hfollow⟩ := convertSections_tracks (start_tracks junk posIn) himg hconv hrun
  have hlen := htracks.length
  have hplace := c.place
  have hfits := c.fits
  refine ⟨?_, hfollow, c, htracks, rfl⟩
  unfold Writable
  simp only [List.nil_append] at hlen
  omega

theorem coff2noff_returns (junk : Image) (posIn : ℕ) (himg : IsImage coff sections img) (hconv : Convertible sections)
    (hfits : Writable sections) (htest : PassesTest sections) : Returns (coff2noff coff junk posIn sections) := by
  obtain ⟨c, hrun⟩ := convertSections_returns (start_tracks junk posIn) himg hconv hfits htest
  unfold coff2noff
  rw [hrun]
  exact ⟨_, rfl⟩

/-! ### Loading the file -/

theorem wordAt_output (c : Conversion) {k : ℕ} (hk : k < 10) :
    wordAt (fun o => c.output.bytes.getD o 0) (4 * k) = BitVec.ofInt 32 (c.noffH.field k) := by
  rw [← wordAt_ofWords (fun k => BitVec.ofInt 32 (c.noffH.field k)) k]
  refine wordAt_congr fun j hj => ?_
  have hlt : 4 * k + j < c.noffH.toBytes.length := by
    rw [NoffHeader.length_toBytes, noffHeaderSize]
    omega
  show (c.noffH.toBytes ++ c.written).getD (4 * k + j) 0 = _
  rw [List.getD_append _ _ _ _ hlt, List.getD_eq_getElem _ _ hlt]
  simp [NoffHeader.toBytes]

theorem field_output (c : Conversion) {k : ℕ} (hk : k < 10) (h : IsInt (c.noffH.field k)) :
    (wordAt (fun o => c.output.bytes.getD o 0) (4 * k)).toInt = c.noffH.field k := by
  have hhigh := h.2
  simp only [intMax] at hhigh
  rw [wordAt_output c hk, toInt_ofInt_of_bounds h.1 (by omega)]

/-- The header is read back as it was written. -/
theorem ofImage_output (hc : c.Tracks coff sections) :
    NoffHeader.ofImage (fun o => c.output.bytes.getD o 0) = c.noffH := by
  have hmagic : IsInt c.noffH.noffMagic := by
    rw [hc.magic]
    exact ⟨by decide, by decide⟩
  have hword : ∀ seg : Segment, seg.Ints → ∀ k, k + 2 < 10 → c.noffH.field k = seg.virtualAddr →
      c.noffH.field (k + 1) = seg.inFileAddr → c.noffH.field (k + 2) = seg.size →
      Segment.ofImage (fun o => c.output.bytes.getD o 0) (4 * k) = seg := by
    intro seg hints k hk h0 h1 h2
    unfold Segment.ofImage
    rw [field_output c (by omega) (by rw [h0]; exact hints.virtualAddr), h0,
      show 4 * k + 4 = 4 * (k + 1) by omega, show 4 * k + 8 = 4 * (k + 2) by omega,
      field_output c (by omega) (by rw [h1]; exact hints.inFileAddr), h1,
      field_output c hk (by rw [h2]; exact hints.size), h2]
  have h0 : (wordAt (fun o => c.output.bytes.getD o 0) 0).toInt = c.noffH.noffMagic :=
    field_output c (k := 0) (by decide) hmagic
  have h1 : Segment.ofImage (fun o => c.output.bytes.getD o 0) 4 = c.noffH.code :=
    hword _ hc.codeInts 1 (by omega) rfl rfl rfl
  have h2 : Segment.ofImage (fun o => c.output.bytes.getD o 0) 16 = c.noffH.initData :=
    hword _ hc.initDataInts 4 (by omega) rfl rfl rfl
  have h3 : Segment.ofImage (fun o => c.output.bytes.getD o 0) 28 = c.noffH.uninitData :=
    hword _ hc.uninitDataInts 7 (by omega) rfl rfl rfl
  unfold NoffHeader.ofImage
  rw [h0, h1, h2, h3]

theorem Segment.Holds.spans_iff {written : List UInt8} (h : seg.Holds coff written l) (hone : l.length ≤ 1)
    (x : Int) : seg.Spans x ↔ ∃ s ∈ l, s.Covers x := by
  cases l with
  | nil =>
    have hsize : seg.size = 0 := h
    simp only [Segment.Spans, List.not_mem_nil, false_and, exists_false, iff_false]
    omega
  | cons s l =>
    obtain ⟨before, after, -, rfl⟩ := h
    have hl : l = [] := List.eq_nil_of_length_eq_zero (by simpa using hone)
    simp [hl, Segment.Spans, SectionHeader.Covers]

theorem Segment.Holds.byte (h : seg.Holds coff c.written l) (hl : ∀ s ∈ l, s.In coff img ∧ s.kind ≠ .zero) {x : Int}
    (hx : seg.Spans x) : c.output.bytes.getD (seg.inFileAddr + (x - seg.virtualAddr)).toNat 0 = img x := by
  cases l with
  | nil =>
    have hsize : seg.size = 0 := h
    unfold Segment.Spans at hx
    omega
  | cons s l =>
    obtain ⟨before, after, hwritten, rfl⟩ := h
    obtain ⟨hs, hkind⟩ := hl s List.mem_cons_self
    obtain ⟨-, hlen⟩ := hs.seek hkind 0
    obtain ⟨hptr, -⟩ := hs.raw hkind
    obtain ⟨i, hi⟩ := Int.eq_ofNat_of_zero_le (show 0 ≤ x - s.sPaddr from Int.sub_nonneg.mpr hx.1)
    have hlt : i < s.sSize.toNat := by
      have hx' := hx.2
      dsimp only at hx'
      omega
    have hpos : ((noffHeaderSize : Int) + before.length + (x - s.sPaddr)).toNat =
        (c.noffH.toBytes ++ before).length + i := by
      rw [hi, List.length_append, NoffHeader.length_toBytes]
      omega
    have hoff : (s.sScnptr + (x - s.sPaddr)).toNat = s.sScnptr.toNat + i := by
      rw [hi]
      omega
    have hbytes : c.output.bytes = (c.noffH.toBytes ++ before) ++ (s.raw coff ++ after) := by
      show c.noffH.toBytes ++ c.written = _
      rw [hwritten]
      simp only [List.append_assoc]
    dsimp only
    rw [hs.byte x hx, if_neg hkind, hpos, hoff, hbytes, List.getD_append_right _ _ _ _ (by omega),
      Nat.add_sub_cancel_left, List.getD_append _ _ _ _ (by omega)]
    unfold SectionHeader.raw
    rw [List.getD_eq_getElem?_getD, List.getD_eq_getElem?_getD, List.getElem?_take_of_lt hlt, List.getElem?_drop]

/-- What loading the file gives at an address. -/
theorem Conversion.Tracks.loadNoff (hc : c.Tracks coff sections) (himg : IsImage coff sections img)
    (hconv : Convertible sections) (x : Int) :
    (Nachos.loadNoff c.output x = some (img x) ∧ ∃ s ∈ ofKind .text sections ++ ofKind .data sections, s.Covers x) ∨
      (Nachos.loadNoff c.output x = if c.noffH.uninitData.Spans x then some 0 else none) ∧
        ¬ ∃ s ∈ ofKind .text sections ++ ofKind .data sections, s.Covers x := by
  have hall : ∀ k, k ≠ .zero → ∀ s ∈ ofKind k sections, s.In coff img ∧ s.kind ≠ .zero := by
    intro k hk s hs
    obtain ⟨hmem, hsize, hkind⟩ := mem_ofKind.mp hs
    exact ⟨himg s hmem hsize, by rw [hkind]; exact hk⟩
  have hdata := hc.initData.spans_iff hconv.data x
  have htext := hc.code.spans_iff hconv.text x
  unfold Nachos.loadNoff
  rw [ofImage_output hc]
  unfold NoffHeader.memoryByte
  simp only [List.mem_append, or_and_right, exists_or]
  rw [← hdata, ← htext]
  by_cases h1 : c.noffH.initData.Spans x
  · rw [if_pos h1, hc.initData.byte (hall .data nofun) h1]
    exact Or.inl ⟨rfl, Or.inr h1⟩
  · rw [if_neg h1]
    by_cases h2 : c.noffH.code.Spans x
    · rw [if_pos h2, hc.code.byte (hall .text nofun) h2]
      exact Or.inl ⟨rfl, Or.inl h2⟩
    · rw [if_neg h2]
      exact Or.inr ⟨rfl, not_or.mpr ⟨h2, h1⟩⟩

theorem Segment.Merges.spans_iff {z : SectionHeader} (h : u.Merges (z :: zs))
    (x : Int) : u.Spans x ↔ z.sPaddr ≤ x ∧ x < mergedEnd (z :: zs) := by
  unfold Segment.Spans
  rw [mergedEnd_eq rfl h.1 h.2, h.1]

theorem Conversion.Tracks.reproduces_iff (hc : c.Tracks coff sections) (himg : IsImage coff sections img)
    (hconv : Convertible sections) :
    (∀ s ∈ sections, s.sSize ≠ 0 → ∀ x, s.Covers x → Nachos.loadNoff c.output x = some (img x)) ↔
      Covered sections := by
  have hload := hc.loadNoff himg hconv
  have hmerges := hc.uninitData
  constructor
  · intro h z zs hzs t ht x hx
    rw [← hzs] at ht
    obtain ⟨hmem, hsize, -⟩ := mem_ofKind.mp ht
    rcases hload x with ⟨-, hother⟩ | ⟨hzero, -⟩
    · exact Or.inr hother
    · left
      rw [hzs] at hmerges
      rw [h t hmem hsize x hx] at hzero
      split at hzero
      · next hspans => exact (hmerges.spans_iff x).mp hspans
      · cases hzero
  · intro h s hs hsize x hx
    rcases hload x with ⟨hbyte, -⟩ | ⟨hzero, hnone⟩
    · exact hbyte
    · cases hkind : s.kind with
      | text => exact absurd ⟨s, List.mem_append_left _ (mem_ofKind.mpr ⟨hs, hsize, hkind⟩), hx⟩ hnone
      | data => exact absurd ⟨s, List.mem_append_right _ (mem_ofKind.mpr ⟨hs, hsize, hkind⟩), hx⟩ hnone
      | unknown => exact absurd hkind (hconv.known s hs hsize)
      | zero =>
        have hmem := mem_ofKind.mpr ⟨hs, hsize, hkind⟩
        obtain ⟨z, zs, hzs⟩ := List.exists_cons_of_ne_nil (List.ne_nil_of_mem hmem)
        rw [hzs] at hmerges hmem
        have hin := (h z zs hzs s hmem x hx).resolve_right hnone
        rw [hzero, if_pos ((hmerges.spans_iff x).mpr hin), (himg s hs hsize).byte x hx, if_pos hkind]

/-- Two adjacent sections of zeros do not pass the test. -/
theorem PassesTest.length_le (h : PassesTest sections) (hadjacent : Adjacent (ofKind .zero sections)) :
    (ofKind .zero sections).length ≤ 1 := by
  match hzs : ofKind .zero sections with
  | [] => exact Nat.zero_le 1
  | [z] => exact le_refl 1
  | a :: b :: l =>
    obtain ⟨l1, l2, rfl, hl1, ha, hl2⟩ := List.filter_eq_cons_iff.mp hzs
    obtain ⟨l3, l4, rfl, hl3, hb, -⟩ := List.filter_eq_cons_iff.mp hl2
    have hpre : ofKind .zero (l1 ++ a :: l3) = [a] := by
      unfold ofKind
      rw [List.filter_append, List.filter_eq_nil_iff.mpr hl1, List.filter_cons, if_pos ha,
        List.filter_eq_nil_iff.mpr hl3, List.nil_append]
    obtain ⟨hsize, hkind⟩ := of_decide_eq_true hb
    have hfollow := h (l1 ++ a :: l3) b l4 (by simp) hsize hkind (by rw [hpre]; nofun)
    rw [hpre] at hfollow
    have hstart : b.sPaddr = a.sPaddr + a.sSize := by
      rw [hzs] at hadjacent
      exact (List.isChain_cons_cons.mp hadjacent).1
    exact absurd (by rw [hstart]; simp [mergedEnd, totalSize]) hfollow.1

theorem passesTest_of_length_le (h : (ofKind .zero sections).length ≤ 1) : PassesTest sections := by
  rintro pre z post rfl hsize hkind hne
  have hpos := List.length_pos_of_ne_nil hne
  have hz : ofKind .zero (z :: post) ≠ [] := List.ne_nil_of_mem (mem_ofKind.mpr ⟨List.mem_cons_self, hsize, hkind⟩)
  have hpos' := List.length_pos_of_ne_nil hz
  rw [ofKind_split, List.length_append] at h
  omega

end Run

/-- The image is preserved if there is at most one section of zeros, or else if they are not adjacent and the ones that
the test lets through happen to fill the merged segment. -/
theorem coff2noff_preserves_iff {coff : List UInt8} {sections : List SectionHeader} {img : Int → UInt8} (junk : Image)
    (posIn : ℕ) (hconv : Convertible sections) (himg : IsImage coff sections img) :
    PreservesImage coff junk posIn sections img ↔ (Writable sections →
      (Adjacent (ofKind .zero sections) → (ofKind .zero sections).length ≤ 1) ∧
        (PassesTest sections → Covered sections)) := by
  constructor
  · rintro ⟨hrepro, haccept⟩ hfits
    refine ⟨fun hadjacent => ?_, fun htest => ?_⟩
    · obtain ⟨out, hout⟩ := haccept hfits hadjacent
      exact (coff2noff_eq_ok himg hconv hout).2.1.length_le hadjacent
    · obtain ⟨out, hout⟩ := coff2noff_returns junk posIn himg hconv hfits htest
      obtain ⟨-, -, c, hc, rfl⟩ := coff2noff_eq_ok himg hconv hout
      exact (hc.reproduces_iff himg hconv).mp (hrepro _ hout)
  · intro h
    refine ⟨fun out hout => ?_, fun hfits hadjacent => ?_⟩
    · obtain ⟨hfits, htest, c, hc, rfl⟩ := coff2noff_eq_ok himg hconv hout
      exact (hc.reproduces_iff himg hconv).mpr ((h hfits).2 htest)
    · exact coff2noff_returns junk posIn himg hconv hfits (passesTest_of_length_le ((h hfits).1 hadjacent))

def textSection (sPaddr sSize sScnptr : Int) : SectionHeader :=
  ⟨cString ['.', 't', 'e', 'x', 't'], sPaddr, sSize, sScnptr⟩

def bssSection (sPaddr sSize : Int) : SectionHeader := ⟨cString ['.', 'b', 's', 's'], sPaddr, sSize, 0⟩

def sbssSection (sPaddr sSize : Int) : SectionHeader := ⟨cString ['.', 's', 'b', 's', 's'], sPaddr, sSize, 0⟩

theorem bssSection_in (coff : List UInt8) {sPaddr sSize : Int} (hsize : 0 ≤ sSize) (hmax : sSize ≤ intMax)
    (hfirst : -2147483648 ≤ sPaddr) (hlast : sPaddr + sSize ≤ intMax) {img : Int → UInt8}
    (hzero : ∀ x, sPaddr ≤ x → img x = 0) :
    (bssSection sPaddr sSize).In coff img ∧ (sbssSection sPaddr sSize).In coff img :=
  ⟨⟨hsize, hmax, hfirst, hlast, fun h => absurd rfl h, fun x hx => hzero x hx.1⟩,
    ⟨hsize, hmax, hfirst, hlast, fun h => absurd rfl h, fun x hx => hzero x hx.1⟩⟩

theorem coff2noff_preserves_text : PreservesImage [1, 2, 3, 4] (fun _ => 0) 0 [textSection 0 4 0, bssSection 4 8]
    (fun x => if x < 4 then [1, 2, 3, 4].getD x.toNat 0 else 0) := by
  have hconv : Convertible [textSection 0 4 0, bssSection 4 8] := ⟨by decide, by decide, by decide⟩
  refine (coff2noff_preserves_iff (fun _ => 0) 0 hconv ?_).mpr fun _ => ⟨fun _ => by decide, fun _ => ?_⟩
  · intro s hs _
    rcases List.mem_pair.mp hs with rfl | rfl
    · refine ⟨by decide, by decide, by decide, by decide, fun _ => by decide, fun x hx => ?_⟩
      have hhigh : x < 0 + 4 := hx.2
      have hkind : (textSection 0 4 0).kind ≠ .zero := by decide
      rw [if_pos (by omega), if_neg hkind]
      show _ = [1, 2, 3, 4].getD (0 + (x - 0)).toNat 0
      rw [Int.zero_add, Int.sub_zero]
    · exact (bssSection_in _ (by decide) (by decide) (by decide) (by decide) fun x hx => if_neg (by omega)).1
  · intro z zs hzs t ht x hx
    have hzs' : z = bssSection 4 8 ∧ zs = [] := by
      have h : ofKind .zero [textSection 0 4 0, bssSection 4 8] = [bssSection 4 8] := by decide
      rw [h] at hzs
      exact ⟨(List.cons.inj hzs).1.symm, (List.cons.inj hzs).2.symm⟩
    obtain ⟨rfl, rfl⟩ := hzs'
    obtain rfl := List.mem_singleton.mp ht
    exact Or.inl hx

/-- `.sbss` and after it `.bss`, as the linker script lays them out, are refused; with a gap between them they are
accepted, and the second one is not in memory. -/
theorem coff2noff_breaks_zero_data :
    coff2noff [] (fun _ => 0) 0 [sbssSection 256 8, bssSection 264 8] = .error .bssAndSbss ∧
      ¬ PreservesImage [] (fun _ => 0) 0 [sbssSection 256 8, bssSection 264 8] (fun _ => 0) ∧
      (∃ out, coff2noff [] (fun _ => 0) 0 [sbssSection 256 8, bssSection 512 8] = .ok out ∧ loadNoff out 512 = none) ∧
      ¬ PreservesImage [] (fun _ => 0) 0 [sbssSection 256 8, bssSection 512 8] (fun _ => 0) := by
  have hrefused : coff2noff [] (fun _ => 0) 0 [sbssSection 256 8, bssSection 264 8] = .error .bssAndSbss := rfl
  have hmade : ∃ out, coff2noff [] (fun _ => 0) 0 [sbssSection 256 8, bssSection 512 8] = .ok out ∧
      loadNoff out 512 = none := ⟨_, rfl, rfl⟩
  refine ⟨hrefused, fun h => ?_, hmade, fun h => ?_⟩
  · obtain ⟨out, hout⟩ := h.2 (by decide) (by decide)
    rw [hrefused] at hout
    cases hout
  · obtain ⟨out, hout, hnone⟩ := hmade
    have hsome := h.1 out hout (bssSection 512 8) (by simp) (by decide) 512 ⟨by decide, by decide⟩
    rw [hnone] at hsome
    cases hsome

end Nachos
