import Nachos.Userprog.AddrSpace

/-! # What `load_page` and `store_page` do to an address space

`AddrSpace.Ok` holds of every address space of the system, also under memory pressure. For each
routine there is one lemma that says what it returns; `loadPage_cases` takes a call of `load_page`
apart into the choice of the frame and the filling of the page. -/
set_option autoImplicit false

namespace Nachos
open Buffer Execution

variable {a a' : AddrSpace} {m m' : Memory} {v numPages fuel : ℕ} {fs : Programs} {r : Int}

/-! ## Bytes -/

theorem store_apply (m : Image) (pos : ℕ) (bytes : List UInt8) (o : ℕ) :
    store m pos bytes o = if pos ≤ o ∧ o < pos + bytes.length then bytes.getD (o - pos) 0 else m o := rfl

theorem store_outside (m : Image) {pos : ℕ} (bytes : List UInt8) {o : ℕ}
    (h : o < pos ∨ pos + bytes.length ≤ o) : store m pos bytes o = m o := by
  rw [store_apply, if_neg (by omega)]

@[simp] theorem store_nil (m : Image) (pos : ℕ) : store m pos [] = m := copy_zero m _ pos

theorem putBytes_nil (m : Memory) (start : Int) : m.putBytes start [] = .ok m := by
  simp [Memory.putBytes]

theorem putBytes_eq (m : Memory) {start : ℕ} {bytes : List UInt8} (h : start + bytes.length ≤ memorySize) :
    m.putBytes start bytes = .ok { m with mainMemory := store m.mainMemory start bytes } := by
  unfold Memory.putBytes
  by_cases hb : bytes = []
  · rw [if_pos hb, hb, store_nil]
  · rw [if_neg hb, if_pos ⟨by omega, by omega⟩, Int.toNat_natCast]

theorem putBytes_ok {start : Int} {bytes : List UInt8} (h : m.putBytes start bytes = .ok m') :
    m' = { m with mainMemory := store m.mainMemory start.toNat bytes } := by
  unfold Memory.putBytes at h
  split at h
  · next hb =>
    cases h
    rw [hb, store_nil]
  · split at h
    · cases h
      rfl
    · cases h

theorem readAt_of_nonneg (f : Executable) {n p : Int} (hp : 0 ≤ p) :
    f.readAt n p = .ok ((f.bytes.drop p.toNat).take n.toNat) := by
  unfold Executable.readAt
  split
  · next h =>
    rcases h with h | h
    · rw [Int.toNat_of_nonpos h, List.take_zero]
    · rw [List.drop_eq_nil_of_le (by omega), List.take_nil]
  · rw [if_neg (by omega)]

theorem readAt_past (f : Executable) {n p : Int} (h : n ≤ 0 ∨ (f.bytes.length : Int) ≤ p) : f.readAt n p = .ok [] := by
  unfold Executable.readAt
  rw [if_pos (by omega)]

theorem readAt_of_neg (f : Executable) {n p : Int} (hn : 0 < n) (hp : p < 0) :
    f.readAt n p = .error (.outOfBounds .buffer) := by
  unfold Executable.readAt
  rw [if_neg (by omega), if_pos hp]

/-! ## Free frames -/

theorem firstFree_eq_some {i : ℕ} :
    firstFree m = some i ↔
      i < numPhysPages ∧ m.availablePages i = 0 ∧ ∀ j < i, m.availablePages j ≠ 0 := by
  unfold firstFree
  rw [List.find?_range_eq_some]
  simp only [decide_eq_true_eq, List.mem_range, Bool.not_eq_true', decide_eq_false_iff_not]
  constructor
  · rintro ⟨hzero, hi, hmin⟩
    exact ⟨hi, hzero, hmin⟩
  · rintro ⟨hi, hzero, hmin⟩
    exact ⟨hzero, hi, hmin⟩

theorem firstFree_eq_none : firstFree m = none ↔ ∀ i < numPhysPages, m.availablePages i ≠ 0 := by
  unfold firstFree
  rw [List.find?_range_eq_none]
  simp only [Bool.not_eq_true', decide_eq_false_iff_not, ne_eq]

/-! ## Well-formed address spaces -/

abbrev IsFrame (f : Int) : Prop := 0 ≤ f ∧ f < numPhysPages

structure TranslationEntry.Ok (e : TranslationEntry) (v : ℕ) : Prop where
  index : e.virtualPage = v
  frame : e.physicalPage = -1 ∨ IsFrame e.physicalPage
  writable : e.readOnly = false

/-- What every address space satisfies from its construction on; no page ever counts as being on
disk, and none is read-only. -/
structure AddrSpace.Ok (a : AddrSpace) : Prop where
  header : ∃ image, a.noffH = NoffHeader.ofImage image
  pages : (a.numPages : Int) = divRoundUp a.noffH.spaceSize pageSize
  fits : a.numPages ≤ numPhysPages
  bits : a.onDisk.numBits = a.numPages
  clear : ∀ v < a.numPages, a.onDisk.bit v = false
  entry : ∀ v < a.numPages, (a.pageTable v).Ok v

/-- Two states of one address space. -/
structure AddrSpace.SameProgram (a a' : AddrSpace) : Prop where
  numPages : a'.numPages = a.numPages
  filename : a'.filename = a.filename
  noffH : a'.noffH = a.noffH
  onDisk : a'.onDisk = a.onDisk

theorem AddrSpace.SameProgram.refl (a : AddrSpace) : a.SameProgram a := ⟨rfl, rfl, rfl, rfl⟩

theorem AddrSpace.SameProgram.trans {b c : AddrSpace} (h : a.SameProgram b) (h' : b.SameProgram c) :
    a.SameProgram c where
  numPages := h'.numPages.trans h.numPages
  filename := h'.filename.trans h.filename
  noffH := h'.noffH.trans h.noffH
  onDisk := h'.onDisk.trans h.onDisk

@[simp] theorem setEntry_pageTable (a : AddrSpace) (v : ℕ) (e : TranslationEntry) :
    (a.setEntry v e).pageTable = Function.update a.pageTable v e := rfl

theorem setEntry_sameProgram (a : AddrSpace) (v : ℕ) (e : TranslationEntry) :
    a.SameProgram (a.setEntry v e) := ⟨rfl, rfl, rfl, rfl⟩

theorem AddrSpace.Ok.of_entries (h : a.Ok) (hp : a.SameProgram a')
    (he : ∀ v < a.numPages, (a'.pageTable v).Ok v) : a'.Ok where
  header := by rw [hp.noffH]; exact h.header
  pages := by rw [hp.numPages, hp.noffH]; exact h.pages
  fits := by rw [hp.numPages]; exact h.fits
  bits := by rw [hp.numPages, hp.onDisk]; exact h.bits
  clear := by rw [hp.numPages, hp.onDisk]; exact h.clear
  entry := by rw [hp.numPages]; exact he

theorem AddrSpace.Ok.setEntry (h : a.Ok) {e : TranslationEntry} (he : e.Ok v) : (a.setEntry v e).Ok := by
  apply h.of_entries (setEntry_sameProgram a v e)
  intro w hw
  rw [setEntry_pageTable]
  by_cases hwv : w = v
  · subst hwv
    rw [Function.update_self]
    exact he
  · rw [Function.update_of_ne hwv]
    exact h.entry w hw

theorem AddrSpace.Ok.test_eq (h : a.Ok) (hv : v < a.numPages) : a.onDisk.test v = .ok false := by
  rw [BitMap.test_eq a.onDisk (by rw [h.bits]; omega), h.clear v hv]

theorem construct_eq_ok {junk : Image} {words : ℕ → BitVec 32} {name : FileName}
    (h : AddrSpace.construct fs junk words name = .ok a) :
    a.Ok ∧ a.filename = name ∧ a.pageTable = TranslationEntry.absent ∧ a.victumOffset = 0 ∧
      ∃ f, fs name = some f ∧ NoffHeader.fetch f junk = .ok a.noffH ∧ a.noffH.noffMagic = noffMagic := by
  unfold AddrSpace.construct at h
  cases hf : fs name with
  | none => simp [hf] at h
  | some f =>
    simp only [hf] at h
    obtain ⟨noffH, hfetch, h⟩ := bind_eq_ok.mp h
    split at h
    · cases h
    · next hmagic =>
      split at h
      · next hpages =>
        obtain ⟨onDisk, hnew, h⟩ := bind_eq_ok.mp h
        obtain ⟨b, hb, hbits, hclear⟩ :=
          @BitMap.new_spec words (divRoundUp noffH.spaceSize pageSize).toNat
        rw [Int.toNat_of_nonneg hpages.1] at hb hbits
        rw [hb] at hnew
        cases hnew
        cases h
        refine ⟨⟨?_, Int.toNat_of_nonneg hpages.1, by simp only [numPhysPages] at *; omega, ?_, hclear, ?_⟩,
          rfl, rfl, rfl, f, rfl, hfetch, not_not.mp hmagic⟩
        · obtain ⟨bytes, _, hfetch⟩ := bind_eq_ok.mp hfetch
          cases hfetch
          exact ⟨_, rfl⟩
        · rw [hbits, Int.toNat_of_nonneg hpages.1]
        · intro v _
          exact ⟨rfl, Or.inl rfl, rfl⟩
      · cases h

/-! ## Swapping out -/

/-- A failure other than an access outside `mainMemory`. -/
def Contained (t : Trap) : Prop := t ≠ .outOfBounds .mainMemory

theorem frameCount_meets (m : Memory) (frame : Int) :
    Meets Contained (fun _ => IsFrame frame) (m.frameCount frame) := by
  unfold Memory.frameCount
  split
  · next h => exact h
  · simp [Contained]

theorem setFrameCount_meets (m : Memory) (frame count : Int) :
    Meets Contained (fun m' => IsFrame frame ∧ m'.mainMemory = m.mainMemory)
      (m.setFrameCount frame count) := by
  unfold Memory.setFrameCount
  split
  · next h => exact ⟨h, rfl⟩
  · simp [Contained]

theorem find_meets (b : BitMap) : Meets Contained (fun _ => True) b.find := by
  have hfrom : ∀ (n i : ℕ), Meets Contained (fun _ => True) (b.findFrom i n) := by
    intro n
    induction n with
    | zero =>
      intro i
      exact trivial
    | succ n ih =>
      intro i
      have htest : Meets Contained (fun _ => True) (b.test i) := by
        unfold BitMap.test
        split <;> simp [Contained]
      have hmark : Meets Contained (fun _ => True) (b.mark i) := by
        unfold BitMap.mark
        split <;> simp [Contained]
      apply htest.bind
      intro marked _ _
      cases marked with
      | false => exact hmark.bind fun _ _ _ => trivial
      | true => exact ih (i + 1)
  exact hfrom _ 0

theorem swapSector_meets (m : Memory) (a : AddrSpace) (v : ℕ) :
    Meets Contained (fun r => a.SameProgram r.2.1 ∧ r.2.1.pageTable = a.pageTable ∧
      r.2.2.mainMemory = m.mainMemory) (swapSector m a v) := by
  unfold swapSector
  dsimp only
  split
  · apply (find_meets m.availableSectors).bind
    rintro ⟨sector, sectors⟩ _ _
    dsimp only
    split
    · have hmark : Meets Contained (fun _ => True) (sectors.mark sector) := by
        unfold BitMap.mark
        split <;> simp [Contained]
      exact hmark.bind fun _ _ _ => ⟨⟨rfl, rfl, rfl, rfl⟩, rfl, rfl⟩
    · simp [Contained]
  · exact ⟨.refl a, rfl, rfl⟩

theorem writePage_meets (m : Memory) (a : AddrSpace) {physicalPage : Int} (virtualPage : Int)
    (hp : IsFrame physicalPage) :
    Meets Contained (fun r => a.SameProgram r.2.1 ∧ r.2.1.pageTable = a.pageTable ∧
      r.2.2.mainMemory = m.mainMemory) (writePage m a physicalPage virtualPage) := by
  unfold writePage
  split
  · apply (swapSector_meets m a virtualPage.toNat).bind
    rintro ⟨sector, a', m'⟩ _ h
    dsimp only
    have hwrite : Meets Contained (fun _ => True)
        (writeSector m'.disk sector (shift m'.mainMemory (physicalPage.toNat * pageSize))) := by
      unfold writeSector
      split <;> simp [Contained]
    exact hwrite.bind fun _ _ _ => h
  · simp [Contained]

theorem sharedFrame_meets (m : Memory) {e : TranslationEntry} (h : e.Ok v) :
    Meets Contained (fun _ => IsFrame e.physicalPage) (sharedFrame m e) := by
  unfold sharedFrame
  rw [h.writable]
  exact (frameCount_meets m e.physicalPage).bind fun _ _ hr => hr

/-- The loop of `try_store_page` changes use bits only, and its choice is a page of the space. -/
structure VictimScan.Ok (s : VictimScan) (numPages : ℕ) : Prop where
  best : s.bestPage < numPages
  entry : ∀ v < numPages, (s.pageTable v).Ok v

theorem VictimScan.Ok.noteUse {s : VictimScan} (h : s.Ok numPages) (curr : ℕ) : (s.noteUse curr).Ok numPages := by
  unfold VictimScan.noteUse
  split
  · split
    · refine ⟨h.best, ?_⟩
      intro v hv
      by_cases hvc : v = curr
      · subst hvc
        have he := h.entry v hv
        simp only [Function.update_self]
        exact ⟨he.index, he.frame, he.writable⟩
      · simp only [Function.update_of_ne hvc]
        exact h.entry v hv
    · exact ⟨h.best, h.entry⟩
  · exact h

theorem scanVictims_meets (m : Memory) (hpos : 0 < numPages) (off : Int) (n i : ℕ) (s : VictimScan)
    (h : s.Ok numPages) : Meets Contained (fun s' => s'.Ok numPages) (scanVictims m numPages off n i s) := by
  induction n generalizing i s with
  | zero => exact h
  | succ n ih =>
    unfold scanVictims
    dsimp only
    split
    · exact ih (i + 1) s h
    · have hnote := h.noteUse (toUnsigned (off + i) % numPages)
      have hbetter : ∀ used, (VictimScan.Ok { s.noteUse (toUnsigned (off + i) % numPages) with
          bestPage := toUnsigned (off + i) % numPages, bestUsed := used } numPages) := by
        intro used
        exact ⟨Nat.mod_lt _ hpos, hnote.entry⟩
      apply (sharedFrame_meets m (hnote.entry _ hnote.best)).bind
      intro shared _ _
      split
      · exact ih (i + 1) _ (hbetter _)
      · split
        · exact ih (i + 1) _ (hbetter _)
        · split
          · exact ih (i + 1) _ (hbetter _)
          · split
            · exact hbetter _
            · exact ih (i + 1) _ hnote

/-- The loop of `try_store_page` passes over pages that are not valid. -/
theorem scanVictims_skip (m : Memory) {off : Int} (n i : ℕ) (s : VictimScan)
    (h : ∀ k, i ≤ k → k < i + n → (s.pageTable (toUnsigned (off + k) % numPages)).valid = false) :
    scanVictims m numPages off n i s = .ok s := by
  induction n generalizing i with
  | zero => rfl
  | succ n ih =>
    unfold scanVictims
    dsimp only
    rw [if_pos (by rw [h i (le_refl i) (by omega)]; simp)]
    exact ih (i + 1) fun k hk hk' => h k (by omega) (by omega)

/-- What a routine that swaps out leaves behind. -/
def SwapsOut (m : Memory) (a : AddrSpace) (r : Int × AddrSpace × Memory) : Prop :=
  r.2.1.Ok ∧ a.SameProgram r.2.1 ∧ r.2.2.mainMemory = m.mainMemory

theorem releaseFrame_meets (m : Memory) (h : a.Ok) (hv : v < a.numPages) :
    Meets Contained (SwapsOut m a) (releaseFrame m a v) := by
  unfold releaseFrame
  apply (setFrameCount_meets m _ 0).bind
  intro m' _ hm
  have he := h.entry v hv
  exact ⟨h.setEntry ⟨he.index, Or.inl rfl, he.writable⟩, setEntry_sameProgram a v _, hm.2⟩

theorem pushOut_meets (m : Memory) (h : a.Ok) (hv : v < a.numPages) (hp : IsFrame (a.pageTable v).physicalPage) :
    Meets Contained (SwapsOut m a) (pushOut m a v) := by
  have he := h.entry v hv
  unfold pushOut
  dsimp only
  split
  · apply (writePage_meets m a (a.pageTable v).virtualPage hp).bind
    rintro ⟨sector, a', m'⟩ _ ⟨hprog, htable, hmem⟩
    dsimp only at hprog htable hmem ⊢
    have ha' : a'.Ok := h.of_entries hprog (by rw [htable]; exact h.entry)
    have hset : (a'.setEntry v { a.pageTable v with valid := false, physicalPage := -1 }).Ok :=
      ha'.setEntry ⟨he.index, Or.inl rfl, he.writable⟩
    have hsame := hprog.trans (setEntry_sameProgram a' v
      { a.pageTable v with valid := false, physicalPage := -1 })
    rw [if_neg (by rw [he.writable]; simp)]
    apply (releaseFrame_meets m' hset (by rw [hsame.numPages]; exact hv)).mono
    rintro r _ ⟨h1, h2, h3⟩
    exact ⟨h1, hsame.trans h2, h3.trans hmem⟩
  · exact releaseFrame_meets m h hv

theorem tryStorePage_meets (m : Memory) (h : a.Ok) : Meets Contained (SwapsOut m a) (tryStorePage m a) := by
  unfold tryStorePage
  split
  · next hoff =>
    have hpos : 0 < a.numPages := by omega
    apply (scanVictims_meets m hpos a.victumOffset (a.numPages - 1) 1
      ⟨a.pageTable, a.victumOffset.toNat, false, -1⟩ ⟨by dsimp only; omega, h.entry⟩).bind
    intro s _ hs
    have hok : ({ a with pageTable := s.pageTable } : AddrSpace).Ok :=
      h.of_entries ⟨rfl, rfl, rfl, rfl⟩ hs.entry
    apply (sharedFrame_meets m (hs.entry s.bestPage hs.best)).bind
    intro shared _ hp
    split
    · exact ⟨hok, ⟨rfl, rfl, rfl, rfl⟩, rfl⟩
    · have hvic : ({ a with pageTable := s.pageTable, victumOffset := s.unusedOffset } : AddrSpace).Ok :=
        h.of_entries ⟨rfl, rfl, rfl, rfl⟩ hs.entry
      apply (pushOut_meets m hvic hs.best hp).mono
      rintro r _ ⟨h1, h2, h3⟩
      exact ⟨h1, ⟨h2.numPages, h2.filename, h2.noffH, h2.onDisk⟩, h3⟩
  · simp [Contained]

theorem storePage_meets (fuel : ℕ) (m : Memory) (h : a.Ok) : Meets Contained (SwapsOut m a) (storePage fuel m a) := by
  induction fuel generalizing m a with
  | zero => simp [storePage, Contained]
  | succ fuel ih =>
    unfold storePage
    apply (tryStorePage_meets m h).bind
    rintro ⟨rtn, a', m'⟩ _ ⟨h1, h2, h3⟩
    dsimp only at h1 h2 h3 ⊢
    split
    · apply (ih m' h1).mono
      rintro r _ ⟨h1', h2', h3'⟩
      exact ⟨h1', h2.trans h2', h3'.trans h3⟩
    · exact ⟨h1, h2, h3⟩

/-! ## Where a segment goes -/

/-- C division and remainder by the page size, by the sign of the dividend. -/
theorem tdiv_tmod_cases (x : Int) :
    (0 ≤ x ∧ x.tdiv 128 = x / 128 ∧ x.tmod 128 = x % 128) ∨
      (x < 0 ∧ x.tdiv 128 = -(-x / 128) ∧ x.tmod 128 = -(-x % 128)) := by
  rcases lt_or_ge x 0 with hx | hx
  · have hdiv := Int.neg_tdiv (a := -x) (b := 128)
    have hmod := Int.neg_tmod (a := -x) (b := 128)
    rw [Int.neg_neg, Int.tdiv_eq_ediv_of_nonneg (show 0 ≤ -x by omega)] at hdiv
    rw [Int.neg_neg, Int.tmod_eq_emod_of_nonneg (show 0 ≤ -x by omega)] at hmod
    exact Or.inr ⟨hx, hdiv, hmod⟩
  · exact Or.inl ⟨hx, Int.tdiv_eq_ediv_of_nonneg hx, Int.tmod_eq_emod_of_nonneg hx⟩

theorem le_start (seg : Segment) {v : Int} (f : Int) (hv : 0 ≤ v)
    (h : ¬ (v = 0 ∧ -128 < seg.virtualAddr ∧ seg.virtualAddr < 0)) : f * 128 ≤ seg.start v f := by
  have hcases := tdiv_tmod_cases seg.virtualAddr
  unfold Segment.start
  simp only [pageSize, sectorSize, Nat.cast_ofNat]
  split <;> omega

theorem clipEnd_le (f e : Int) : clipEnd f e ≤ (f + 1) * 128 := by
  have hcases := tdiv_tmod_cases e
  unfold clipEnd
  simp only [pageSize, sectorSize, Nat.cast_ofNat]
  split <;> omega

theorem loadSegment_shape {seg : Segment} {segmentEnd : Segment → Int → Int → Int} {v f : Int}
    (h : loadSegment fs m a seg segmentEnd v f = .ok (some m')) : ∃ mem, m' = { m with mainMemory := mem } := by
  unfold loadSegment at h
  split at h
  · split at h
    · cases h
    · obtain ⟨bytes, _, h⟩ := bind_eq_ok.mp h
      obtain ⟨m1, hput, h⟩ := bind_eq_ok.mp h
      cases h
      exact ⟨_, putBytes_ok hput⟩
  · cases h
    exact ⟨_, rfl⟩

/-! ## Loading a page -/

theorem takeFrame_meets (fuel : ℕ) (m : Memory) (h : a.Ok) (hv : v < a.numPages) :
    Meets Contained (fun r => r.1.Ok ∧ a.SameProgram r.1 ∧ r.2.mainMemory = m.mainMemory ∧
      IsFrame (r.1.pageTable v).physicalPage) (takeFrame fuel m a v) := by
  have he := h.entry v hv
  unfold takeFrame
  split
  · next i hfree =>
    have hi := (firstFree_eq_some.mp hfree).1
    have hframe : IsFrame i := ⟨by omega, by omega⟩
    refine ⟨h.setEntry ⟨he.index, Or.inr hframe, he.writable⟩, setEntry_sameProgram a v _, rfl, ?_⟩
    simp only [setEntry_pageTable, Function.update_self]
    exact hframe
  · split
    · apply (storePage_meets fuel m h).bind
      rintro ⟨frame, a', m'⟩ _ ⟨h1, h2, h3⟩
      dsimp only at h1 h2 h3 ⊢
      apply (setFrameCount_meets m' frame 1).bind
      rintro m'' _ ⟨hr, hm⟩
      have he' := h1.entry v (by rw [h2.numPages]; exact hv)
      refine ⟨h1.setEntry ⟨he'.index, Or.inr hr, he'.writable⟩, h2.trans (setEntry_sameProgram a' v _),
        hm.trans h3, ?_⟩
      simp only [setEntry_pageTable, Function.update_self]
      exact hr
    · next hp => exact ⟨h, .refl a, rfl, he.frame.resolve_left hp⟩

theorem readPage_shape {physicalPage virtualPage : Int}
    (h : readPage m a physicalPage virtualPage = .ok (r, m')) : ∃ mem, m' = { m with mainMemory := mem } := by
  unfold readPage at h
  split at h
  · dsimp only at h
    split at h
    · cases h
      exact ⟨_, rfl⟩
    · obtain ⟨data, -, h⟩ := bind_eq_ok.mp h
      obtain ⟨m1, hput, h⟩ := bind_eq_ok.mp h
      cases h
      exact ⟨_, putBytes_ok hput⟩
  · cases h

/-- Apart from the bytes of memory, filling a page marks its entry valid or does nothing. -/
theorem fillPage_cases (hfill : fillPage fs m a v = .ok (r, a', m')) :
    (∃ mem, m' = { m with mainMemory := mem }) ∧
      (r = -1 ∧ a' = a ∨
        r = (a.pageTable v).physicalPage ∧ a' = a.setEntry v { a.pageTable v with valid := true }) := by
  unfold fillPage at hfill
  dsimp only at hfill
  obtain ⟨onDisk, -, hfill⟩ := bind_eq_ok.mp hfill
  cases onDisk with
  | true =>
    obtain ⟨⟨sector, m1⟩, hread, hfill⟩ := bind_eq_ok.mp hfill
    cases hfill
    exact ⟨readPage_shape hread, Or.inl ⟨rfl, rfl⟩⟩
  | false =>
    obtain ⟨m1, hzero, hfill⟩ := bind_eq_ok.mp hfill
    have h1 := putBytes_ok hzero
    obtain ⟨r2, hcode, hfill⟩ := bind_eq_ok.mp hfill
    cases r2 with
    | none =>
      cases hfill
      exact ⟨⟨_, h1⟩, Or.inl ⟨rfl, rfl⟩⟩
    | some m2 =>
      obtain ⟨mem2, h2⟩ := loadSegment_shape hcode
      obtain ⟨r3, hdata, hfill⟩ := bind_eq_ok.mp hfill
      cases r3 with
      | none =>
        cases hfill
        exact ⟨⟨mem2, by rw [h2, h1]⟩, Or.inl ⟨rfl, rfl⟩⟩
      | some m3 =>
        obtain ⟨mem3, h3⟩ := loadSegment_shape hdata
        cases hfill
        exact ⟨⟨mem3, by rw [h3, h2, h1]⟩, Or.inr ⟨rfl, rfl⟩⟩

theorem loadPage_cases {v : Int} (h : loadPage fs fuel m a v = .ok (r, a', m')) :
    (a' = a ∧ m' = m) ∨
      ∃ w : ℕ, v = w ∧ w < a.numPages ∧ (a.pageTable w).valid = false ∧
        ∃ a1 m1, takeFrame fuel m a w = .ok (a1, m1) ∧ fillPage fs m1 a1 w = .ok (r, a', m') := by
  unfold loadPage at h
  split at h
  · cases h
    exact Or.inl ⟨rfl, rfl⟩
  · next hrange =>
    split at h
    · cases h
      exact Or.inl ⟨rfl, rfl⟩
    · split at h
      · cases h
        exact Or.inl ⟨rfl, rfl⟩
      · next hvalid =>
        obtain ⟨⟨a1, m1⟩, htake, hfill⟩ := bind_eq_ok.mp h
        exact Or.inr ⟨v.toNat, by omega, by omega, by simpa using hvalid, a1, m1, htake, hfill⟩

theorem fillPage_ok (h : a.Ok) (hv : v < a.numPages) (hfill : fillPage fs m a v = .ok (r, a', m')) :
    a'.Ok ∧ a.SameProgram a' ∧ (a'.pageTable v).physicalPage = (a.pageTable v).physicalPage := by
  obtain ⟨-, ⟨-, rfl⟩ | ⟨-, rfl⟩⟩ := fillPage_cases hfill
  · exact ⟨h, .refl a', rfl⟩
  · have he := h.entry v hv
    refine ⟨h.setEntry ⟨he.index, he.frame, he.writable⟩, setEntry_sameProgram a v _, ?_⟩
    simp only [setEntry_pageTable, Function.update_self]

/-- `load_page` keeps an address space well-formed, also when it has to swap out. -/
theorem loadPage_ok (h : a.Ok) {v : Int} (hload : loadPage fs fuel m a v = .ok (r, a', m')) :
    a'.Ok ∧ a.SameProgram a' := by
  rcases loadPage_cases hload with ⟨rfl, rfl⟩ | ⟨w, rfl, hw, -, a1, m1, htake, hfill⟩
  · exact ⟨h, .refl a'⟩
  · obtain ⟨h1, hprog, -, -⟩ := (takeFrame_meets fuel m h hw).of_ok htake
    obtain ⟨h2, hprog', -⟩ := fillPage_ok h1 (by rw [hprog.numPages]; exact hw) hfill
    exact ⟨h2, hprog.trans hprog'⟩

/-- A page that `load_page` returns a frame for is valid, in this frame. -/
theorem loadPage_valid {v : Int} (hload : loadPage fs fuel m a v = .ok (r, a', m')) (hr : r ≠ -1) :
    ∃ w : ℕ, v = w ∧ w < a.numPages ∧ (a'.pageTable w).valid = true ∧ (a'.pageTable w).physicalPage = r := by
  unfold loadPage at hload
  split at hload
  · cases hload
    exact absurd rfl hr
  · next hrange =>
    refine ⟨v.toNat, by omega, by omega, ?_⟩
    split at hload
    · cases hload
      exact absurd rfl hr
    · split at hload
      · next hvalid =>
        cases hload
        exact ⟨hvalid, rfl⟩
      · obtain ⟨⟨a1, m1⟩, -, hfill⟩ := bind_eq_ok.mp hload
        rcases (fillPage_cases hfill).2 with ⟨hfail, -⟩ | ⟨rfl, hentry⟩
        · exact absurd hfail hr
        · rw [hentry, setEntry_pageTable, Function.update_self]
          exact ⟨rfl, rfl⟩

/-! ## Loading into a free frame -/

/-- Memory with frame `f` zeroed. -/
def Memory.zeroed (m : Memory) (f : ℕ) : Memory :=
  { m with mainMemory := store m.mainMemory (f * 128) (List.replicate 128 0) }

theorem bzero_frame (m : Memory) {f : ℕ} (hf : f < numPhysPages) :
    m.bzero ((f : Int) * pageSize) pageSize = .ok (m.zeroed f) := by
  have hlen : f * 128 + (List.replicate 128 (0 : UInt8)).length ≤ memorySize := by
    simp only [numPhysPages] at hf
    simp only [List.length_replicate, memorySize, numPhysPages, pageSize, sectorSize]
    omega
  exact putBytes_eq m hlen

section Fill

variable {f : ℕ}

theorem fillPage_of_segments (h : a.Ok) (hv : v < a.numPages) (hf : f < numPhysPages)
    (hframe : (a.pageTable v).physicalPage = f) {m2 m3 : Memory}
    (hcode : loadSegment fs (m.zeroed f) a a.noffH.code codeEnd v f = .ok (some m2))
    (hdata : loadSegment fs m2 a a.noffH.initData dataEnd v f = .ok (some m3)) :
    fillPage fs m a v = .ok (f, a.setEntry v { a.pageTable v with valid := true }, m3) := by
  unfold fillPage
  dsimp only
  rw [h.test_eq hv, ok_bind, hframe]
  simp only [Bool.false_eq_true, if_false]
  rw [bzero_frame m hf, ok_bind, hcode, ok_bind]
  dsimp only
  rw [hdata, ok_bind]
  rfl

theorem fillPage_of_code_error (h : a.Ok) (hv : v < a.numPages) (hf : f < numPhysPages)
    (hframe : (a.pageTable v).physicalPage = f) {t : Trap}
    (hcode : loadSegment fs (m.zeroed f) a a.noffH.code codeEnd v f = .error t) : fillPage fs m a v = .error t := by
  unfold fillPage
  dsimp only
  rw [h.test_eq hv, ok_bind, hframe]
  simp only [Bool.false_eq_true, if_false]
  rw [bzero_frame m hf, ok_bind, hcode, error_bind]

/-- The entry of page `v` and the use counts after frame `f` was taken for it. -/
def AddrSpace.mapped (a : AddrSpace) (v f : ℕ) : AddrSpace :=
  a.setEntry v { a.pageTable v with physicalPage := f }

def Memory.taken (m : Memory) (f : ℕ) : Memory :=
  { m with availablePages := Function.update m.availablePages f 1 }

/-- The address space with page `v` in frame `f`. -/
def AddrSpace.resident (a : AddrSpace) (v f : ℕ) : AddrSpace :=
  a.setEntry v { a.pageTable v with physicalPage := f, valid := true }

theorem mapped_valid (a : AddrSpace) (v f : ℕ) :
    (a.mapped v f).setEntry v { (a.mapped v f).pageTable v with valid := true } = a.resident v f := by
  simp [AddrSpace.mapped, AddrSpace.resident, AddrSpace.setEntry]

theorem loadPage_free (h : a.Ok) (hv : v < a.numPages) (hinvalid : (a.pageTable v).valid = false)
    (hfree : firstFree m = some f) (fuel : ℕ) : loadPage fs fuel m a v = fillPage fs (m.taken f) (a.mapped v f) v := by
  unfold loadPage
  rw [if_neg (by omega), Int.toNat_natCast, if_neg (by rw [(h.entry v hv).index]; simp),
    if_neg (by rw [hinvalid]; simp)]
  unfold takeFrame
  rw [hfree]
  rfl

theorem AddrSpace.Ok.mapped (h : a.Ok) (hv : v < a.numPages) (hf : f < numPhysPages) : (a.mapped v f).Ok :=
  h.setEntry ⟨(h.entry v hv).index, Or.inr ⟨by simp, by simpa using hf⟩, (h.entry v hv).writable⟩

theorem AddrSpace.Ok.resident (h : a.Ok) (hv : v < a.numPages) (hf : f < numPhysPages) : (a.resident v f).Ok :=
  h.setEntry ⟨(h.entry v hv).index, Or.inr ⟨by simp, by simpa using hf⟩, (h.entry v hv).writable⟩

@[simp] theorem mapped_physicalPage : ((a.mapped v f).pageTable v).physicalPage = f := by
  simp [AddrSpace.mapped]

theorem loadSegment_absent {seg : Segment} {segmentEnd : Segment → Int → Int → Int} {v f : Int}
    (h : ¬ seg.OnPage v) : loadSegment fs m a seg segmentEnd v f = .ok (some m) := by
  unfold loadSegment
  rw [if_neg h]

/-- A page that has nothing in the file is all zeros. -/
theorem loadPage_blank (h : a.Ok) (hv : v < a.numPages) (hinvalid : (a.pageTable v).valid = false)
    (hfree : firstFree m = some f) (hcode : ¬ a.noffH.code.OnPage v) (hdata : ¬ a.noffH.initData.OnPage v) (fuel : ℕ) :
    loadPage fs fuel m a v = .ok (f, a.resident v f, (m.taken f).zeroed f) := by
  have hf := (firstFree_eq_some.mp hfree).1
  rw [loadPage_free h hv hinvalid hfree, ← mapped_valid]
  exact fillPage_of_segments (h.mapped hv hf) hv hf mapped_physicalPage
    (loadSegment_absent hcode) (loadSegment_absent hdata)

end Fill

end Nachos
