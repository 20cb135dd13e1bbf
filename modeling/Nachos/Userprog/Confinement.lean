import Nachos.Userprog.Vm

/-! # What a page load writes

`load_page` reads each segment into the frame of its page and clips the end of the range, not its
start: a segment that begins less than a page below address `0` is put before the frame. Any other
header keeps every load inside its frame, for all values of its fields. -/
set_option autoImplicit false

namespace Nachos
open Buffer Execution

variable {f : Int} {executable : Executable} {a : AddrSpace} {seg : Segment}

/-! ## Ranges -/

/-- A segment that begins less than a page below the address space and has a byte in the file. -/
def Segment.Spills (seg : Segment) (f : Executable) : Prop :=
  0 < seg.size ∧ -128 < seg.virtualAddr ∧ seg.virtualAddr < 0 ∧
    0 ≤ seg.inFileAddr ∧ seg.inFileAddr < f.bytes.length

theorem readAt_meets (f : Executable) (n p : Int) :
    Meets Contained (fun bytes => (bytes.length : Int) ≤ max n 0) (f.readAt n p) := by
  rcases lt_or_ge p 0 with hp | hp
  · rcases lt_or_ge 0 n with hn | hn
    · rw [readAt_of_neg f hn hp]
      simp [Contained]
    · rw [readAt_past f (Or.inl hn)]
      simp
  · rw [readAt_of_nonneg f hp, meets_ok, List.length_take]
    omega

theorem readAt_meets_nil (f : Executable) (n : Int) {p : Int} (h : p < 0 ∨ (f.bytes.length : Int) ≤ p) :
    Meets Contained (fun bytes => bytes = []) (f.readAt n p) := by
  rcases h with hp | hp
  · rcases lt_or_ge 0 n with hn | hn
    · rw [readAt_of_neg f hn hp]
      simp [Contained]
    · rw [readAt_past f (Or.inl hn)]
      exact rfl
  · rw [readAt_past f (Or.inr hp)]
    exact rfl

/-- The two memories agree outside frame `f`. -/
def AgreeOutside (f : Int) (m m' : Memory) : Prop :=
  ∀ o : ℕ, (o : Int) < f * 128 ∨ (f + 1) * 128 ≤ o → m'.mainMemory o = m.mainMemory o

theorem AgreeOutside.trans {m m' m'' : Memory} (h : AgreeOutside f m m')
    (h' : AgreeOutside f m' m'') : AgreeOutside f m m'' :=
  fun o ho => (h' o ho).trans (h o ho)

theorem putBytes_of_range (m : Memory) {start : Int} {bytes : List UInt8} (hf : IsFrame f)
    (h : bytes = [] ∨ f * 128 ≤ start ∧ start + bytes.length ≤ (f + 1) * 128) :
    ∃ m', m.putBytes start bytes = .ok m' ∧ AgreeOutside f m m' := by
  rcases h with rfl | ⟨hlo, hhi⟩
  · exact ⟨m, putBytes_nil m start, fun _ _ => rfl⟩
  · obtain ⟨s, rfl⟩ := Int.eq_ofNat_of_zero_le (show 0 ≤ start by omega)
    obtain ⟨hf0, hf1⟩ := hf
    simp only [numPhysPages] at hf1
    have hfit : s + bytes.length ≤ memorySize := by
      simp only [memorySize, numPhysPages, pageSize, sectorSize]
      omega
    refine ⟨_, putBytes_eq m hfit, ?_⟩
    intro o ho
    exact store_outside m.mainMemory bytes (by omega)

theorem fileOffset_of_below {v : Int} (hv : v = 0) (hlo : -128 < seg.virtualAddr)
    (hhi : seg.virtualAddr < 0) : seg.fileOffset v = seg.inFileAddr := by
  have hcases := tdiv_tmod_cases seg.virtualAddr
  unfold Segment.fileOffset
  simp only [pageSize, sectorSize, Nat.cast_ofNat]
  rw [if_pos (by omega)]

/-- What a segment that does not spill has for a page fits into the page's frame. -/
theorem readAt_range {v n : Int} (f : Int) (hv : 0 ≤ v) (hend : seg.start v f + n ≤ (f + 1) * 128)
    (hpos : 0 < seg.size) (hsafe : ¬ (v = 0 ∧ seg.Spills executable)) :
    Meets Contained (fun bytes => bytes = [] ∨ f * 128 ≤ seg.start v f ∧
      seg.start v f + bytes.length ≤ (f + 1) * 128) (executable.readAt n (seg.fileOffset v)) := by
  by_cases hneg : v = 0 ∧ -128 < seg.virtualAddr ∧ seg.virtualAddr < 0
  · -- the segment begins below the page, so nothing of it may be in the file
    have hout : seg.inFileAddr < 0 ∨ (executable.bytes.length : Int) ≤ seg.inFileAddr := by
      by_contra hin
      exact hsafe ⟨hneg.1, hpos, hneg.2.1, hneg.2.2, by omega, by omega⟩
    rw [fileOffset_of_below hneg.1 hneg.2.1 hneg.2.2]
    exact (readAt_meets_nil executable n hout).mono fun _ _ h => Or.inl h
  · have hstart := le_start seg f hv hneg
    apply (readAt_meets executable n (seg.fileOffset v)).mono
    intro bytes _ hlen
    by_cases hnil : bytes = []
    · exact Or.inl hnil
    · have hlength := List.length_pos_iff.mpr hnil
      exact Or.inr ⟨hstart, by omega⟩

section Segments

variable {fs : Programs} {segmentEnd : Segment → Int → Int → Int} {v : Int}

theorem loadSegment_meets (m : Memory) (hv : 0 ≤ v) (hf : IsFrame f) (hend : segmentEnd seg v f ≤ (f + 1) * 128)
    (hsafe : ∀ executable, fs a.filename = some executable → ¬ (v = 0 ∧ seg.Spills executable)) :
    Meets Contained (fun r => ∀ m', r = some m' → AgreeOutside f m m')
      (loadSegment fs m a seg segmentEnd v f) := by
  unfold loadSegment
  split
  · next hon =>
    split
    · exact fun _ h => nomatch h
    · next executable hopen =>
      dsimp only
      apply (readAt_range f hv (by omega) hon.1 (hsafe executable hopen)).bind
      intro bytes _ hb
      obtain ⟨m', hput, hagree⟩ := putBytes_of_range m hf hb
      rw [hput, ok_bind]
      rintro m'' ⟨⟩
      exact hagree
  · rintro m' ⟨⟩
    exact fun _ _ => rfl

/-- Without a negative file offset the segment is loaded. -/
theorem loadSegment_total (m : Memory) (hopen : fs a.filename = some executable) (hv : 0 ≤ v) (hf : IsFrame f)
    (hend : segmentEnd seg v f ≤ (f + 1) * 128) (hsafe : ¬ (v = 0 ∧ seg.Spills executable))
    (hoff : seg.OnPage v → 0 ≤ seg.fileOffset v) :
    ∃ m', loadSegment fs m a seg segmentEnd v f = .ok (some m') ∧ AgreeOutside f m m' := by
  by_cases hon : seg.OnPage v
  · have hread := readAt_of_nonneg executable (n := segmentEnd seg v f - seg.start v f) (hoff hon)
    have hrange := (readAt_range (n := segmentEnd seg v f - seg.start v f) f hv (by omega) hon.1
      hsafe).of_ok hread
    obtain ⟨m', hput, hagree⟩ := putBytes_of_range m hf hrange
    refine ⟨m', ?_, hagree⟩
    unfold loadSegment
    rw [if_pos hon, hopen]
    dsimp only
    rw [hread, ok_bind, hput]
    rfl
  · exact ⟨m, loadSegment_absent hon, fun _ _ => rfl⟩

end Segments

theorem start_lt_codeEnd {code : Segment} (hpos : 0 < code.size) (hmax : code.size ≤ intMax) (v : Int)
    (hf : IsFrame f) : code.start v f < codeEnd code v f := by
  obtain ⟨hf0, hf1⟩ := hf
  obtain ⟨hlo, hhi, k, hk⟩ := int32_spec (code.start v f + code.size)
  have hstart : f * 128 - 128 < code.start v f ∧ code.start v f < (f + 1) * 128 := by
    have hcases := tdiv_tmod_cases code.virtualAddr
    unfold Segment.start
    simp only [pageSize, sectorSize, Nat.cast_ofNat]
    split <;> omega
  have hcases := tdiv_tmod_cases (int32 (code.start v f + code.size))
  simp only [numPhysPages, intMax] at hf1 hmax
  unfold codeEnd clipEnd
  simp only [pageSize, sectorSize, Nat.cast_ofNat]
  split <;> omega

theorem ofImage_size_le (image : Image) (pos : ℕ) : (Segment.ofImage image pos).size ≤ intMax := by
  have := BitVec.toInt_lt (x := wordAt image (pos + 8))
  simp only [Segment.ofImage, intMax]
  omega

theorem AddrSpace.Ok.size_le (h : a.Ok) : a.noffH.code.size ≤ intMax ∧ a.noffH.initData.size ≤ intMax := by
  obtain ⟨image, himage⟩ := h.header
  rw [himage]
  exact ⟨ofImage_size_le image 4, ofImage_size_le image 16⟩

theorem le_clipEnd (hf : 1 ≤ f) (e : Int) : f * 128 ≤ clipEnd f e := by
  have hcases := tdiv_tmod_cases e
  unfold clipEnd
  simp only [pageSize, sectorSize, Nat.cast_ofNat]
  split <;> omega

theorem codeEnd_le (code : Segment) (v f : Int) : codeEnd code v f ≤ (f + 1) * 128 := clipEnd_le f _

theorem dataEnd_le (initData : Segment) (v f : Int) : dataEnd initData v f ≤ (f + 1) * 128 := clipEnd_le f _

/-! ## Loads that stay in their frame -/

/-- No code begins below the address space, and where data does, the load fails before it comes to it. -/
def NoffHeader.StaysInFrame (h : NoffHeader) (f : Executable) : Prop :=
  ¬ h.code.Spills f ∧ (h.initData.Spills f → h.code.OnPage 0 ∧ h.code.fileOffset 0 < 0)

theorem code_fileOffset_nonneg {fs : Programs} {m : Memory} (h : a.Ok) (hopen : fs a.filename = some executable)
    {v : Int} (hf : IsFrame f) {r : Option Memory} (hload : loadSegment fs m a a.noffH.code codeEnd v f = .ok r)
    (hon : a.noffH.code.OnPage v) : 0 ≤ a.noffH.code.fileOffset v := by
  by_contra hneg
  have hlt := start_lt_codeEnd hon.1 h.size_le.1 v hf
  unfold loadSegment at hload
  rw [if_pos hon, hopen] at hload
  dsimp only at hload
  rw [readAt_of_neg executable (by omega) (by omega)] at hload
  cases hload

theorem fillPage_meets (fs : Programs) (m : Memory) (h : a.Ok) {v : ℕ} (hv : v < a.numPages)
    (hf : IsFrame (a.pageTable v).physicalPage)
    (hsafe : ∀ executable, fs a.filename = some executable → v = 0 → a.noffH.StaysInFrame executable) :
    Meets Contained (fun r => AgreeOutside (a.pageTable v).physicalPage m r.2.2) (fillPage fs m a v) := by
  unfold fillPage
  dsimp only
  rw [h.test_eq hv, ok_bind]
  have hzero : ∃ m1, m.bzero ((a.pageTable v).physicalPage * pageSize) pageSize = .ok m1 ∧
      AgreeOutside (a.pageTable v).physicalPage m m1 := by
    apply putBytes_of_range m hf
    refine Or.inr ⟨le_refl _, ?_⟩
    simp only [List.length_replicate, pageSize, sectorSize, Nat.cast_ofNat]
    omega
  obtain ⟨m1, hbzero, h1⟩ := hzero
  simp only [Bool.false_eq_true, if_false]
  rw [hbzero, ok_bind]
  have hcode := loadSegment_meets m1 (Int.natCast_nonneg v) hf (codeEnd_le _ v _)
    (fun ex hex hs => (hsafe ex hex (by omega)).1 hs.2)
  apply hcode.bind
  intro r2 hload h2
  cases r2 with
  | none => exact h1
  | some m2 =>
    have hdata := loadSegment_meets m2 (Int.natCast_nonneg v) hf (dataEnd_le _ v _) (by
      rintro ex hex ⟨hv0, hspill⟩
      have hlate := (hsafe ex hex (by omega)).2 hspill
      rw [hv0] at hload
      have hoff := code_fileOffset_nonneg h hex hf hload hlate.1
      omega)
    have h12 := h1.trans (h2 m2 rfl)
    apply hdata.bind
    intro r3 _ h3
    cases r3 with
    | none => exact h12
    | some m3 => exact h12.trans (h3 m3 rfl)

/-- A call of `load_page` writes `mainMemory` only inside the frame that the page's entry names
afterwards. -/
def Confined (m : Memory) (virtPage : Int) (c : Call (Int × AddrSpace × Memory)) : Prop :=
  Meets Contained (fun r => AgreeOutside (r.2.1.pageTable virtPage.toNat).physicalPage m r.2.2) c

theorem loadPage_confined (fs : Programs) (fuel : ℕ) (m : Memory) (h : a.Ok) (v : Int)
    (hsafe : ∀ executable, fs a.filename = some executable → 0 < a.numPages → a.noffH.StaysInFrame executable) :
    Confined m v (loadPage fs fuel m a v) := by
  unfold Confined loadPage
  split
  · exact fun _ _ => rfl
  · next hrange =>
    split
    · exact fun _ _ => rfl
    · split
      · exact fun _ _ => rfl
      · have hv : v.toNat < a.numPages := by omega
        apply (takeFrame_meets fuel m h hv).bind
        rintro ⟨a1, m1⟩ _ ⟨h1, hprog, hmem, hf⟩
        dsimp only at h1 hprog hmem hf ⊢
        have hv1 : v.toNat < a1.numPages := by rw [hprog.numPages]; exact hv
        have hfill := fillPage_meets fs m1 h1 hv1 hf (by
          rw [hprog.filename, hprog.noffH]
          exact fun ex hex _ => hsafe ex hex (by omega))
        apply hfill.mono
        rintro ⟨r, a2, m2⟩ hok hagree o ho
        have hsame := (fillPage_ok h1 hv1 hok).2.2
        dsimp only at hagree ho ⊢
        rw [hsame] at ho
        rw [← hmem]
        exact hagree o ho

/-! ## Loads that do not -/

theorem Segment.Spills.onPage (h : seg.Spills executable) (hmax : seg.size ≤ intMax) : seg.OnPage 0 := by
  obtain ⟨hpos, hlo, hhi, -⟩ := h
  have hva := tdiv_tmod_cases seg.virtualAddr
  have hend := tdiv_tmod_cases (int32 (seg.virtualAddr + seg.size))
  obtain ⟨hlo', hhi', k, hk⟩ := int32_spec (seg.virtualAddr + seg.size)
  simp only [intMax] at hmax
  unfold Segment.OnPage
  simp only [pageSize, sectorSize, Nat.cast_ofNat]
  omega

theorem Segment.Spills.start_eq (h : seg.Spills executable) (f : Int) : seg.start 0 f = f * 128 + seg.virtualAddr := by
  obtain ⟨hpos, hlo, hhi, -⟩ := h
  have hva := tdiv_tmod_cases seg.virtualAddr
  unfold Segment.start
  simp only [pageSize, sectorSize, Nat.cast_ofNat]
  split <;> omega

section Spilling

variable {fs : Programs} {segmentEnd : Segment → Int → Int → Int}

/-- What is read of a segment that spills, and where it is put. -/
theorem Segment.Spills.loadSegment_eq (hspill : seg.Spills executable) (hmax : seg.size ≤ intMax)
    (hopen : fs a.filename = some executable) (m : Memory) (hlt : seg.start 0 f < segmentEnd seg 0 f) :
    ∃ b rest, executable.bytes.getD seg.inFileAddr.toNat 0 = b ∧
      ((b :: rest).length : Int) ≤ segmentEnd seg 0 f - seg.start 0 f ∧
      loadSegment fs m a seg segmentEnd 0 f = do
        let m ← m.putBytes (f * 128 + seg.virtualAddr) (b :: rest)
        return some m := by
  have hfields := hspill
  obtain ⟨-, hlo, hhi, hin, hlen⟩ := hfields
  have hi : seg.inFileAddr.toNat < executable.bytes.length := by omega
  obtain ⟨n, hn⟩ : ∃ n : ℕ, (segmentEnd seg 0 f - seg.start 0 f).toNat = n + 1 :=
    ⟨(segmentEnd seg 0 f - seg.start 0 f).toNat - 1, by omega⟩
  refine ⟨executable.bytes[seg.inFileAddr.toNat], ((executable.bytes.drop (seg.inFileAddr.toNat + 1)).take n),
    by rw [List.getD_eq_getElem?_getD, List.getElem?_eq_getElem hi, Option.getD_some], ?_, ?_⟩
  · simp only [List.length_cons, List.length_take]
    omega
  · unfold loadSegment
    rw [if_pos (hspill.onPage hmax), hopen]
    dsimp only
    rw [fileOffset_of_below rfl hlo hhi, readAt_of_nonneg executable hin, hn,
      List.drop_eq_getElem_cons hi, List.take_succ_cons, ok_bind, hspill.start_eq]

/-- In frame `0` the code would be put before the first byte of memory. -/
theorem code_spills_frame_zero (hspill : a.noffH.code.Spills executable) (h : a.Ok)
    (hopen : fs a.filename = some executable) (m : Memory) :
    loadSegment fs m a a.noffH.code codeEnd 0 0 = .error (.outOfBounds .mainMemory) := by
  have hlt := start_lt_codeEnd hspill.1 h.size_le.1 0 (f := 0) ⟨le_refl _, by decide⟩
  obtain ⟨b, rest, -, -, hload⟩ := hspill.loadSegment_eq h.size_le.1 hopen m hlt
  rw [hload]
  have hput : m.putBytes (0 * 128 + a.noffH.code.virtualAddr) (b :: rest) =
      .error (.outOfBounds .mainMemory) := by
    have hneg := hspill.2.2.1
    unfold Memory.putBytes
    rw [if_neg (by simp), if_neg (by omega)]
  rw [hput, error_bind]

/-- In frame `1` it overwrites the end of frame `0`. -/
theorem spills_frame_one (hspill : seg.Spills executable) (hmax : seg.size ≤ intMax)
    (hopen : fs a.filename = some executable) (m : Memory)
    (hlt : seg.start 0 1 < segmentEnd seg 0 1) (hle : segmentEnd seg 0 1 ≤ (1 + 1) * 128) :
    ∃ m', loadSegment fs m a seg segmentEnd 0 1 = .ok (some m') ∧
      m'.mainMemory (128 + seg.virtualAddr).toNat = executable.bytes.getD seg.inFileAddr.toNat 0 := by
  obtain ⟨b, rest, hb, hlen, hload⟩ := hspill.loadSegment_eq hmax hopen m hlt
  have hstart := hspill.start_eq 1
  obtain ⟨-, hlo, hhi, -⟩ := hspill
  obtain ⟨p, hp⟩ := Int.eq_ofNat_of_zero_le (show 0 ≤ 1 * 128 + seg.virtualAddr by omega)
  have hfit : p + (b :: rest).length ≤ memorySize := by
    simp only [memorySize, numPhysPages, pageSize, sectorSize]
    omega
  rw [hload, hp, putBytes_eq m hfit, ok_bind]
  refine ⟨_, rfl, ?_⟩
  have hidx : (128 + seg.virtualAddr).toNat = p := by omega
  dsimp only
  rw [hidx, store_apply, if_pos ⟨le_refl p, by simp⟩, Nat.sub_self, hb]
  rfl

end Spilling

/-! ## Beside another process -/

/-- Frame `0` belongs to process `1`, which has stored `x` in it; process `0` has loaded nothing. -/
theorem reached_beside {fs : Programs} {junk : Image} {words : ℕ → BitVec 32} {name : FileName}
    (hbuild : AddrSpace.construct fs junk words name = .ok a) {p : ℕ} (hp : p < 128) (x : UInt8) :
    ∃ s b, Vm.Reached s ∧ s.spaces 0 = some a ∧ firstFree s.memory = some 1 ∧ s.memory.mainMemory p = x ∧
      s.spaces 1 = some b ∧ (b.pageTable 0).valid = true ∧ (b.pageTable 0).physicalPage = 0 := by
  obtain ⟨s, hboot, -⟩ := Vm.exists_booted
  obtain ⟨b, hb, hblank, hpages, -⟩ := blank_construct []
  obtain ⟨hok, -, htable, -⟩ := construct_eq_ok hb
  have hfree : firstFree s.memory = some 0 := hboot.firstFree
  have hwrite := write_blank hok hblank (v := 0) (by omega) hp (by rw [htable]; rfl) hfree
    (onlyFile blankFile) 0 (fun _ => x)
  have h1 := Vm.Reached.build (Reachable.start hboot) 1 hb
  have h2 := h1.write (Vm.set_spaces s 1 b s.memory) hwrite
  refine ⟨_, b.resident 0 0, h2.build 0 hbuild, Vm.set_spaces _ 0 a _, ?_, ?_, ?_, ?_, ?_⟩
  · apply firstFree_eq_some.mpr
    refine ⟨by decide, ?_, ?_⟩
    · exact hboot.free 1
    · intro j hj
      obtain rfl : j = 0 := by omega
      exact (by decide : (1 : Int) ≠ 0)
  · simp [Vm.set, Memory.setByte]
  · simp [Vm.set]
  · simp [AddrSpace.resident]
  · simp [AddrSpace.resident]

section Unconfined

variable {fs₀ fs : Programs} {junk : Image} {words : ℕ → BitVec 32} {name : FileName} {a₀ : AddrSpace}

theorem code_unconfined (hbuild : AddrSpace.construct fs₀ junk words name = .ok a₀) (hopen : fs name = some executable)
    (hpages : 0 < a₀.numPages) (hspill : a₀.noffH.code.Spills executable) :
    ∃ s, Vm.Reached s ∧ s.spaces 0 = some a₀ ∧
      ¬ Confined s.memory (0 : ℕ) (loadPage fs 0 s.memory a₀ (0 : ℕ)) := by
  obtain ⟨hok, hname, htable, -⟩ := construct_eq_ok hbuild
  obtain ⟨s, hboot, -⟩ := Vm.exists_booted
  have hinvalid : (a₀.pageTable 0).valid = false := by rw [htable]; rfl
  have hfree : firstFree s.memory = some 0 := hboot.firstFree
  have hmapped : (a₀.mapped 0 0).Ok := hok.mapped hpages (by decide)
  have hspill' : (a₀.mapped 0 0).noffH.code.Spills executable := hspill
  have hopen' : fs (a₀.mapped 0 0).filename = some executable := by rw [← hopen, ← hname]; rfl
  have hseg := code_spills_frame_zero hspill' hmapped hopen' ((s.memory.taken 0).zeroed 0)
  refine ⟨_, Vm.Reached.build (Reachable.start hboot) 0 hbuild, Vm.set_spaces s 0 a₀ s.memory, ?_⟩
  rw [show (s.set 0 a₀ s.memory).memory = s.memory from rfl, loadPage_free hok hpages hinvalid hfree,
    fillPage_of_code_error hmapped hpages (by decide) mapped_physicalPage hseg]
  simp [Confined, Contained]

/-- The last byte of frame `0` is set beforehand to another value than the one the data brings. -/
theorem data_unconfined (hbuild : AddrSpace.construct fs₀ junk words name = .ok a₀) (hopen : fs name = some executable)
    (hpages : 0 < a₀.numPages) (hcode : ¬ a₀.noffH.code.Spills executable)
    (hoff : a₀.noffH.code.OnPage 0 → 0 ≤ a₀.noffH.code.fileOffset 0) (hspill : a₀.noffH.initData.Spills executable) :
    ∃ s, Vm.Reached s ∧ s.spaces 0 = some a₀ ∧
      ¬ Confined s.memory (0 : ℕ) (loadPage fs 0 s.memory a₀ (0 : ℕ)) := by
  obtain ⟨hok, hname, htable, -⟩ := construct_eq_ok hbuild
  have hopen' : fs (a₀.mapped 0 1).filename = some executable := by rw [← hopen, ← hname]; rfl
  have hinvalid : (a₀.pageTable 0).valid = false := by rw [htable]; rfl
  have hrange : -128 < a₀.noffH.initData.virtualAddr ∧ a₀.noffH.initData.virtualAddr < 0 :=
    ⟨hspill.2.1, hspill.2.2.1⟩
  obtain ⟨s, -, hs, hspace, hfree, hbyte, -⟩ := reached_beside hbuild
    (show (128 + a₀.noffH.initData.virtualAddr).toNat < 128 by omega)
    (executable.bytes.getD a₀.noffH.initData.inFileAddr.toNat 0 + 1)
  have hmapped : (a₀.mapped 0 1).Ok := hok.mapped hpages (by decide)
  obtain ⟨m2, hload2, -⟩ : ∃ m2, loadSegment fs ((s.memory.taken 1).zeroed 1) (a₀.mapped 0 1)
      a₀.noffH.code codeEnd 0 1 = .ok (some m2) ∧ _ :=
    loadSegment_total _ hopen' (le_refl 0) ⟨by decide, by decide⟩ (codeEnd_le _ _ _)
      (fun h => hcode h.2) hoff
  have hlt : a₀.noffH.initData.start 0 1 < dataEnd a₀.noffH.initData 0 1 := by
    have hstart := hspill.start_eq 1
    have hend := le_clipEnd (f := 1) (by decide)
      (int32 (a₀.noffH.initData.start 0 1 + a₀.noffH.initData.size - a₀.noffH.initData.fileOffset 0))
    unfold dataEnd
    omega
  obtain ⟨m3, hload3, hnew⟩ := spills_frame_one hspill hok.size_le.2 hopen' m2 hlt (dataEnd_le _ _ _)
  refine ⟨s, hs, hspace, fun hconf => ?_⟩
  rw [loadPage_free hok hpages hinvalid hfree,
    fillPage_of_segments hmapped hpages (by decide) mapped_physicalPage hload2 hload3] at hconf
  have hagree : AgreeOutside 1 s.memory m3 := by simpa [Confined] using hconf
  have hsame := hagree (128 + a₀.noffH.initData.virtualAddr).toNat (Or.inl (by omega))
  rw [hnew, hbyte] at hsame
  exact absurd hsame.symm (by simp)

/-- For a given executable, every load of every process that runs it stays in its frame exactly if
neither segment begins less than a page below address `0` with a byte to deliver. -/
theorem loadPage_confined_iff (hbuild : AddrSpace.construct fs₀ junk words name = .ok a₀)
    (hopen : fs name = some executable) :
    (∀ s i a fuel virtPage, Vm.Reached s → s.spaces i = some a → a.filename = name →
        a.noffH = a₀.noffH → Confined s.memory virtPage (loadPage fs fuel s.memory a virtPage)) ↔
      (0 < a₀.numPages → a₀.noffH.StaysInFrame executable) := by
  obtain ⟨hok, hname, -⟩ := construct_eq_ok hbuild
  constructor
  · intro hall hpages
    have hcode : ¬ a₀.noffH.code.Spills executable := by
      intro hspill
      obtain ⟨s, hs, hspace, hnot⟩ := code_unconfined hbuild hopen hpages hspill
      exact hnot (hall s 0 a₀ 0 _ hs hspace hname rfl)
    refine ⟨hcode, fun hspill => ?_⟩
    by_contra hlate
    have hoff : a₀.noffH.code.OnPage 0 → 0 ≤ a₀.noffH.code.fileOffset 0 := by
      intro hon
      by_contra hneg
      exact hlate ⟨hon, by omega⟩
    obtain ⟨s, hs, hspace, hnot⟩ := data_unconfined hbuild hopen hpages hcode hoff hspill
    exact hnot (hall s 0 a₀ 0 _ hs hspace hname rfl)
  · intro hsafe s i a fuel virtPage hs ha hfile hheader
    have haok := hs.ok i a ha
    apply loadPage_confined fs fuel s.memory haok
    intro ex hex hpos
    rw [hfile, hopen] at hex
    cases hex
    rw [hheader]
    apply hsafe
    have hpages := haok.pages
    rw [hheader, ← hok.pages] at hpages
    omega

end Unconfined

/-- A program whose code begins at address `0`. -/
theorem loadPage_confined_iff_note :
    ∃ a, AddrSpace.construct (onlyFile noteFile) (fun _ => 0) (fun _ => 0#32) [] = .ok a ∧ a.noffH.code.size = 8 ∧
      ∀ s i b fuel virtPage, Vm.Reached s → s.spaces i = some b → b.filename = [] → b.noffH = a.noffH →
        Confined s.memory virtPage (loadPage (onlyFile noteFile) fuel s.memory b virtPage) := by
  obtain ⟨a, ha, hnote, -⟩ := note_construct []
  refine ⟨a, ha, by rw [hnote]; rfl, (loadPage_confined_iff ha rfl).mpr fun _ => ?_⟩
  rw [hnote]
  exact ⟨fun h => absurd h.2.2.1 (by decide), fun h => absurd h.1 (by decide)⟩

/-- Eight bytes of code from address `-4` on. -/
def belowFile : Executable where
  bytes := [0xad, 0xdf, 0xba, 0, 0xfc, 0xff, 0xff, 0xff, 40, 0, 0, 0, 8, 0, 0, 0] ++
    List.replicate 24 0 ++ [1, 2, 3, 4, 5, 6, 7, 8]
  fits := by decide

def belowHeader : NoffHeader where
  noffMagic := 0xbadfad
  code := ⟨-4, 40, 8⟩
  initData := ⟨0, 0, 0⟩
  uninitData := ⟨0, 0, 0⟩

/-- Loading page `0` into frame `1` overwrites byte `124` of the other process's frame `0`. -/
theorem loadPage_overwrites_neighbour :
    ∃ s a b a' m', Vm.Reached s ∧ s.spaces 0 = some a ∧ a.noffH = belowHeader ∧ s.spaces 1 = some b ∧
      (b.pageTable 0).valid = true ∧ (b.pageTable 0).physicalPage = 0 ∧
      loadPage (onlyFile belowFile) 0 s.memory a 0 = .ok (1, a', m') ∧
      (a'.pageTable 0).physicalPage = 1 ∧ s.memory.mainMemory 124 = 9 ∧ m'.mainMemory 124 = 1 := by
  have hfetch : NoffHeader.fetch belowFile (fun _ => 0) = .ok belowHeader := rfl
  have hopen : onlyFile belowFile [] = some belowFile := rfl
  obtain ⟨a, ha, hheader, hpages, -⟩ := construct_of_header (fun _ => 0#32) hopen hfetch rfl (n := 9)
    (by decide) (by decide)
  obtain ⟨hok, -, htable, -⟩ := construct_eq_ok ha
  have hpos : 0 < a.numPages := by omega
  obtain ⟨s, b, hs, hspace, hfree, hbyte, hb, hvalid, hframe⟩ := reached_beside ha (p := 124) (by decide) 9
  have hspill : a.noffH.code.Spills belowFile := by
    rw [hheader]
    exact ⟨by decide, by decide, by decide, by decide, by decide⟩
  have hmapped : (a.mapped 0 1).Ok := hok.mapped hpos (by decide)
  have hopen' : onlyFile belowFile (a.mapped 0 1).filename = some belowFile := rfl
  have hlt := start_lt_codeEnd hspill.1 hok.size_le.1 0 (f := 1) ⟨by decide, by decide⟩
  obtain ⟨m2, hcode, hnew⟩ := spills_frame_one (a := a.mapped 0 1) hspill hok.size_le.1 hopen'
    ((s.memory.taken 1).zeroed 1) hlt (codeEnd_le _ _ _)
  have hdata : ¬ a.noffH.initData.OnPage 0 := by
    rw [hheader]
    exact fun hon => absurd hon.1 (by decide)
  have hload : loadPage (onlyFile belowFile) 0 s.memory a (0 : ℕ) = _ :=
    loadPage_free hok hpos (by rw [htable]; rfl) hfree 0
  rw [fillPage_of_segments hmapped hpos (by decide) mapped_physicalPage hcode (loadSegment_absent hdata),
    mapped_valid] at hload
  refine ⟨s, a, b, a.resident 0 1, m2, hs, hspace, hheader, hb, hvalid, hframe, hload, ?_, hbyte, ?_⟩
  · simp [AddrSpace.resident]
  · rw [hheader] at hnew
    exact hnew

end Nachos
