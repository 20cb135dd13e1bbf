import Nachos.Userprog.DemandLoading
import Nachos.Userprog.FrameTable

/-! # What `store_page` and `load_page` promise

`load_page` says that it "returns the frame number, or -1 on error", and `store_page` is there to deliver a frame.
A page that `store_page` drops keeps its `valid` bit, and a page that it has to write out has lost its frame number
when its frame is to be released, so it never leaves the victim as it should. `load_page` has taken a frame for the
page before it finds out that the executable cannot be opened. -/
set_option autoImplicit false

namespace Nachos
open Buffer Execution

variable {virtPage physicalPage : Int} {fuel : ℕ}

/-! ## `store_page` -/

/-- Frame `r` has been taken from one page of the space, and the rest is as before. -/
structure Delivered (a : AddrSpace) (r : Int) (a' : AddrSpace) : Prop where
  frame : IsFrame r
  victim : ∃ v < a.numPages, (a.pageTable v).valid = true ∧ (a.pageTable v).physicalPage = r ∧
    (∀ w < a.numPages, (a.pageTable w).valid = true → (a.pageTable w).physicalPage = r → w = v) ∧
    (a'.pageTable v).valid = false ∧ (a'.pageTable v).physicalPage = -1 ∧
    ∀ w < a.numPages, w ≠ v → ∃ u, a'.pageTable w = { a.pageTable w with use := u }
  hand : 0 ≤ a'.victumOffset ∧ a'.victumOffset < a.numPages

def StoreDelivers (m : Memory) (a : AddrSpace) : Prop :=
  ∃ fuel r a' m', storePage fuel m a = .ok (r, a', m') ∧ Delivered a r a'

theorem storePage_valid {m m' : Memory} {a a' : AddrSpace} {r : Int} (hstore : storePage fuel m a = .ok (r, a', m'))
    (w : ℕ) : (a'.pageTable w).valid = (a.pageTable w).valid := by
  obtain ⟨b, v, f, hsame, -, -, -, -, rfl, -⟩ := storePage_eq_ok fuel hstore
  obtain ⟨u, hu⟩ := hsame.entries w
  by_cases hw : w = v
  · subst hw
    rw [setEntry_pageTable, Function.update_self, hu]
  · rw [setEntry_pageTable, Function.update_of_ne hw, hu]

theorem not_storeDelivers (m : Memory) (a : AddrSpace) : ¬ StoreDelivers m a := by
  rintro ⟨fuel, r, a', m', hstore, hdone⟩
  obtain ⟨v, -, hvalid, -, -, hinvalid, -⟩ := hdone.victim
  rw [storePage_valid hstore, hvalid] at hinvalid
  cases hinvalid

/-- Where a frame is needed and the space has one to give, it is not delivered. -/
theorem storePage_delivers_iff (m : Memory) (a : AddrSpace) :
    (firstFree m = none → (∃ v < a.numPages, (a.pageTable v).valid = true) → StoreDelivers m a) ↔
      firstFree m ≠ none ∨ ∀ v < a.numPages, (a.pageTable v).valid = false := by
  constructor
  · intro h
    by_contra hneither
    rw [not_or, not_not] at hneither
    obtain ⟨hfull, hnone⟩ := hneither
    refine not_storeDelivers m a (h hfull ?_)
    by_contra hno
    refine hnone fun v hv => Bool.eq_false_iff.mpr fun hvalid => hno ⟨v, hv, hvalid⟩
  · rintro (hfree | hnone) hfull ⟨v, hv, hvalid⟩
    · exact absurd hfull hfree
    · rw [hnone v hv] at hvalid
      cases hvalid

/-- All frames are taken, and process `1` has one page, clean, in frame `0`: the frame is released, but the page stays
valid, and the next search for a victim would start at page `-1`. -/
theorem storePage_leaves_valid : ∃ (s : Vm) (a a' : AddrSpace) (m' : Memory), s.Reached ∧ s.spaces 1 = some a ∧
    firstFree s.memory = none ∧ 0 < a.numPages ∧ (a.pageTable 0).valid = true ∧ (a.pageTable 0).physicalPage = (0 : ℕ) ∧
    storePage 1 s.memory a = .ok ((0 : ℕ), a', m') ∧ (a'.pageTable 0).valid = true ∧ a'.victumOffset = -1 ∧
    ¬ StoreDelivers s.memory a := by
  obtain ⟨s, a, hboot, hok, hblank, hpages, hvictim, htable, hreached⟩ := exists_booted_pair
  obtain ⟨s', hs', hspace, hfull, hcount⟩ := booted_full hboot hok hblank hpages htable
    (show ((s.memory.taken 0).zeroed 0).availablePages = _ from rfl)
  obtain ⟨hzero, hother⟩ := resident_entries htable
  have hpos : 0 < (a.resident 0 0).numPages := by
    show 0 < a.numPages
    omega
  obtain ⟨a', m', hstore, hhand, htable'⟩ := storePage_clean (hok.resident (by omega) (by decide)) hpos hvictim
    (by decide) (by rw [hzero]) (by rw [hzero]; rfl) hcount (fun u _ hu => by rw [hother u hu]; rfl)
  refine ⟨s', _, a', m', hs'.reached hreached, hspace, hfull, hpos, by rw [hzero], by rw [hzero], hstore, ?_, hhand,
    not_storeDelivers _ _⟩
  rw [htable', Function.update_self, hzero]

/-! ## `load_page` -/

/-- The page was on disk, and the call has read it back into its frame. -/
structure ReadBack (a : AddrSpace) (virtPage : Int) (a' : AddrSpace) (m' : Memory) : Prop where
  index : (a.pageTable virtPage.toNat).virtualPage = virtPage
  absent : (a.pageTable virtPage.toNat).valid = false
  onDisk : a.onDisk.test virtPage.toNat = .ok true
  read : ∃ m1 sector, 0 ≤ sector ∧
    readPage m1 a' (a'.pageTable virtPage.toNat).physicalPage virtPage = .ok (sector, m')

/-- A call that returns -1 has changed neither `available_pages` nor the page table and has not brought the page in,
and one that returns a frame has left the page there. -/
def FailsCleanly (fs : Programs) (m : Memory) (a : AddrSpace) (virtPage : Int) : Prop :=
  ∀ fuel r a' m', loadPage fs fuel m a virtPage = .ok (r, a', m') →
    (r = -1 → m'.availablePages = m.availablePages ∧ a'.pageTable = a.pageTable ∧ ¬ ReadBack a virtPage a' m') ∧
    (0 ≤ r → 0 ≤ virtPage ∧ virtPage < a.numPages ∧ (a'.pageTable virtPage.toNat).valid = true ∧
      (a'.pageTable virtPage.toNat).physicalPage = r)

/-- The page has to be loaded: it is one of the space, and not there. -/
structure ToLoad (a : AddrSpace) (virtPage : Int) : Prop where
  nonneg : 0 ≤ virtPage
  lt : virtPage < a.numPages
  index : (a.pageTable virtPage.toNat).virtualPage = virtPage
  absent : (a.pageTable virtPage.toNat).valid = false

/-- There is a frame that page `v` did not have. -/
def TakesFrame (m : Memory) (a : AddrSpace) (v : ℕ) : Prop :=
  firstFree m ≠ none ∨ (a.pageTable v).physicalPage = -1 ∧ ∃ fuel, Returns (storePage fuel m a)

/-- The page has a frame and a swap sector that it can be read back from. -/
structure CanReadBack (a : AddrSpace) (v : ℕ) : Prop where
  onDisk : a.onDisk.test v = .ok true
  sector : 0 ≤ a.pageSector v ∧ a.pageSector v < numSectors
  frame : IsFrame (a.pageTable v).physicalPage

/-- The page does not count as being on disk, and the executable can be opened if a part of the page is in it. -/
def Fillable (fs : Programs) (a : AddrSpace) (v : ℕ) : Prop :=
  a.onDisk.test v ≠ .ok true ∧
    (a.onDisk.test v = .ok false → fs a.filename ≠ none ∨ ¬ a.noffH.code.OnPage v ∧ ¬ a.noffH.initData.OnPage v)

section Load
variable {fs : Programs} {m m' : Memory} {a a' : AddrSpace} {v : ℕ}

variable (fs m) in
theorem loadPage_early (h : ¬ ToLoad a virtPage) (fuel : ℕ) : ∃ r, loadPage fs fuel m a virtPage = .ok (r, a, m) := by
  unfold loadPage
  split
  · exact ⟨_, rfl⟩
  · next hrange =>
    split
    · exact ⟨_, rfl⟩
    · next hindex =>
      split
      · exact ⟨_, rfl⟩
      · next hvalid => exact absurd ⟨by omega, by omega, not_not.mp hindex, by simpa using hvalid⟩ h

theorem ToLoad.loadPage_eq (h : ToLoad a v) (fuel : ℕ) :
    loadPage fs fuel m a v = takeFrame fuel m a v >>= fun x => fillPage fs x.2 x.1 v := by
  have hindex := h.index
  have habsent := h.absent
  have hlt := h.lt
  rw [Int.toNat_natCast] at hindex habsent
  unfold loadPage
  rw [if_neg (by omega), Int.toNat_natCast, if_neg (not_not.mpr hindex), if_neg (by rw [habsent]; simp)]

theorem takeFrame_none (hfull : firstFree m = none) (hframe : (a.pageTable v).physicalPage ≠ -1) (fuel : ℕ) :
    takeFrame fuel m a v = .ok (a, m) := by
  unfold takeFrame
  rw [hfull]
  dsimp only
  rw [if_neg hframe]

theorem TakesFrame.takeFrame (h : TakesFrame m a v) : ∃ fuel, Returns (takeFrame fuel m a v) := by
  unfold Nachos.takeFrame
  cases hfree : firstFree m with
  | some i => exact ⟨0, _, rfl⟩
  | none =>
    obtain ⟨hnone, fuel, ⟨r, a1, m1⟩, hstore⟩ := h.resolve_left (not_not.mpr hfree)
    obtain ⟨-, -, f, -, -, hf, -, rfl, -⟩ := storePage_eq_ok fuel hstore
    refine ⟨fuel, ?_⟩
    dsimp only
    rw [if_pos hnone, hstore, ok_bind]
    dsimp only
    unfold Memory.setFrameCount
    rw [if_pos ⟨by omega, by omega⟩]
    exact ⟨_, rfl⟩

/-- A call that finds a frame leaves the page as it is, with the frame it has, or shows in the use counts or in the page
table. -/
theorem takeFrame_cases (h : takeFrame fuel m a v = .ok (a', m')) :
    a.SameProgram a' ∧ (a'.pageTable v).virtualPage = (a.pageTable v).virtualPage ∧
      ((¬ TakesFrame m a v ∧ (a.pageTable v).physicalPage ≠ -1 ∧ a' = a ∧ m' = m) ∨
        TakesFrame m a v ∧ ∃ f : ℕ, f < numPhysPages ∧ (a'.pageTable v).physicalPage = f ∧
          (m'.availablePages ≠ m.availablePages ∨ (a.pageTable v).physicalPage = -1)) := by
  unfold takeFrame at h
  cases hfree : firstFree m with
  | some i =>
    simp only [hfree] at h
    cases h
    obtain ⟨hi, hzero, -⟩ := firstFree_eq_some.mp hfree
    refine ⟨setEntry_sameProgram a v _, by simp,
      Or.inr ⟨Or.inl (by rw [hfree]; nofun), i, hi, by simp, Or.inl fun hsame => ?_⟩⟩
    have hcount := congrFun hsame i
    simp [hzero] at hcount
  | none =>
    simp only [hfree] at h
    split at h
    · next hnone =>
      obtain ⟨⟨r, a1, m1⟩, hstore, h⟩ := bind_eq_ok.mp h
      obtain ⟨b, u, f, hsame, -, hf, -, rfl, rfl, -⟩ := storePage_eq_ok fuel hstore
      obtain ⟨m2, -, h⟩ := bind_eq_ok.mp h
      cases h
      obtain ⟨use, huse⟩ := hsame.entries v
      refine ⟨hsame.program.trans ⟨rfl, rfl, rfl, rfl⟩, ?_,
        Or.inr ⟨Or.inr ⟨hnone, fuel, _, hstore⟩, f, hf, by simp, Or.inr hnone⟩⟩
      by_cases hv : v = u
      · subst hv
        simp [huse]
      · simp [Function.update_of_ne hv, huse]
    · next hframe =>
      cases h
      exact ⟨.refl a, rfl, Or.inl ⟨fun htakes => htakes.elim (absurd hfree) fun h => hframe h.1, hframe, rfl, rfl⟩⟩

theorem readPage_returns (m : Memory) (hv : v < a.numPages) {f : ℕ} (hf : f < numPhysPages) :
    ∃ sector m', readPage m a f v = .ok (sector, m') ∧
      (0 ≤ a.pageSector v ∧ a.pageSector v < numSectors → 0 ≤ sector) := by
  unfold readPage
  rw [if_pos ⟨by omega, by omega⟩]
  dsimp only
  rw [Int.toNat_natCast]
  by_cases hsector : a.pageSector v < 0 ∨ a.pageSector v ≥ numSectors
  · rw [if_pos hsector]
    exact ⟨_, _, rfl, by omega⟩
  · have hfits : f * pageSize + ((List.range sectorSize).map (m.disk (a.pageSector v).toNat)).length ≤ memorySize := by
      simp only [List.length_map, List.length_range, memorySize, numPhysPages, pageSize, sectorSize] at hf ⊢
      omega
    have hput := putBytes_eq m hfits
    rw [if_neg hsector]
    unfold readSector
    rw [if_pos (by omega), ok_bind]
    rw [Nat.cast_mul] at hput
    rw [hput, ok_bind]
    exact ⟨_, _, rfl, fun h => h.1⟩

theorem readPage_sector {sector : Int} (h : readPage m a physicalPage virtPage = .ok (sector, m'))
    (hsector : 0 ≤ sector) : 0 ≤ virtPage ∧ virtPage < a.numPages ∧
      (0 ≤ a.pageSector virtPage.toNat ∧ a.pageSector virtPage.toNat < numSectors) ∧ IsFrame physicalPage := by
  unfold readPage at h
  split at h
  · next hrange =>
    dsimp only at h
    split at h
    · cases h
      omega
    · obtain ⟨data, -, h⟩ := bind_eq_ok.mp h
      obtain ⟨m1, hput, h⟩ := bind_eq_ok.mp h
      unfold Memory.putBytes at hput
      rw [if_neg (by simp [sectorSize])] at hput
      split at hput
      · next hmem =>
        simp only [List.length_map, List.length_range, memorySize, numPhysPages, pageSize, sectorSize] at hmem
        refine ⟨hrange.1, hrange.2, by omega, ?_⟩
        simp only [IsFrame, numPhysPages]
        omega
      · cases hput
  · cases h

theorem loadSegment_opens {seg : Segment} {segmentEnd : Segment → Int → Int → Int} {r : Option Memory}
    (h : loadSegment fs m a seg segmentEnd virtPage physicalPage = .ok r)
    (hopen : fs a.filename ≠ none ∨ ¬ seg.OnPage virtPage) : r ≠ none := by
  unfold loadSegment at h
  split at h
  · next hon =>
    cases hf : fs a.filename with
    | none => exact absurd hf (hopen.resolve_right (not_not.mpr hon))
    | some f =>
      rw [hf] at h
      obtain ⟨bytes, -, h⟩ := bind_eq_ok.mp h
      obtain ⟨m1, -, h⟩ := bind_eq_ok.mp h
      cases h
      nofun
  · cases h
    nofun

theorem loadSegment_unopened {seg : Segment} {segmentEnd : Segment → Int → Int → Int} (hopen : fs a.filename = none)
    (hon : seg.OnPage virtPage) : loadSegment fs m a seg segmentEnd virtPage physicalPage = .ok none := by
  unfold loadSegment
  rw [if_pos hon, hopen]

theorem Fillable.fillPage (h : Fillable fs a v) {r : Int} (hfill : fillPage fs m a v = .ok (r, a', m')) :
    r = (a.pageTable v).physicalPage := by
  unfold Nachos.fillPage at hfill
  dsimp only at hfill
  obtain ⟨onDisk, htest, hfill⟩ := bind_eq_ok.mp hfill
  cases onDisk with
  | true => exact absurd htest h.1
  | false =>
    have hopen := h.2 htest
    obtain ⟨m1, -, hfill⟩ := bind_eq_ok.mp hfill
    obtain ⟨r2, hcode, hfill⟩ := bind_eq_ok.mp hfill
    cases r2 with
    | none => exact absurd rfl (loadSegment_opens hcode (hopen.imp_right And.left))
    | some m2 =>
      obtain ⟨r3, hdata, hfill⟩ := bind_eq_ok.mp hfill
      cases r3 with
      | none => exact absurd rfl (loadSegment_opens hdata (hopen.imp_right And.right))
      | some m3 =>
        cases hfill
        rfl

variable (fs) in
theorem fillPage_onDisk (hv : v < a.numPages) (hindex : (a.pageTable v).virtualPage = v) {f : ℕ}
    (hf : f < numPhysPages) (hframe : (a.pageTable v).physicalPage = f) (hdisk : a.onDisk.test v = .ok true) :
    ∃ sector m', readPage m a (a.pageTable v).physicalPage v = .ok (sector, m') ∧
      (0 ≤ a.pageSector v ∧ a.pageSector v < numSectors → 0 ≤ sector) ∧ fillPage fs m a v = .ok (-1, a, m') := by
  obtain ⟨sector, m', hread, hsector⟩ := readPage_returns m hv hf
  refine ⟨sector, m', by rw [hframe]; exact hread, hsector, ?_⟩
  unfold fillPage
  dsimp only
  rw [hdisk, ok_bind, hindex, hframe, if_pos rfl, hread]
  rfl

/-- A page that cannot be filled, in a frame of its own. -/
theorem fillPage_fails (hv : v < a.numPages) (hindex : (a.pageTable v).virtualPage = v) {f : ℕ} (hf : f < numPhysPages)
    (hframe : (a.pageTable v).physicalPage = f) (h : ¬ Fillable fs a v) :
    ∃ m', fillPage fs m a v = .ok (-1, a, m') := by
  by_cases hdisk : a.onDisk.test v = .ok true
  · obtain ⟨sector, m', -, -, hfill⟩ := fillPage_onDisk fs (m := m) hv hindex hf hframe hdisk
    exact ⟨m', hfill⟩
  · have hopen : ¬ (a.onDisk.test v = .ok false → fs a.filename ≠ none ∨ ¬ a.noffH.code.OnPage v ∧
        ¬ a.noffH.initData.OnPage v) := fun hrest => h ⟨hdisk, hrest⟩
    rw [Classical.not_imp, not_or, not_not, not_and_or, not_not, not_not] at hopen
    obtain ⟨htest, hnone, hon⟩ := hopen
    unfold fillPage
    dsimp only
    rw [htest, ok_bind, hframe]
    simp only [Bool.false_eq_true, if_false]
    rw [bzero_frame m hf, ok_bind]
    by_cases hcode : a.noffH.code.OnPage v
    · rw [loadSegment_unopened hnone hcode]
      exact ⟨_, rfl⟩
    · rw [loadSegment_absent hcode, ok_bind]
      dsimp only
      rw [loadSegment_unopened hnone (hon.resolve_left hcode)]
      exact ⟨_, rfl⟩

theorem ReadBack.toLoad (h : ReadBack a virtPage a' m') (hpages : a'.numPages = a.numPages) : ToLoad a virtPage := by
  obtain ⟨m1, sector, hsector, hread⟩ := h.read
  obtain ⟨hnonneg, hlt, -⟩ := readPage_sector hread hsector
  exact ⟨hnonneg, by omega, h.index, h.absent⟩

theorem fillable_sameProgram (hsame : a.SameProgram a') : Fillable fs a' v ↔ Fillable fs a v := by
  unfold Fillable
  rw [hsame.onDisk, hsame.filename, hsame.noffH]

theorem ToLoad.not_failsCleanly (h : ToLoad a v) (htakes : TakesFrame m a v) (hfill : ¬ Fillable fs a v) :
    ¬ FailsCleanly fs m a v := by
  intro hclean
  have hv := Int.ofNat_lt.mp h.lt
  have hindex := h.index
  rw [Int.toNat_natCast] at hindex
  obtain ⟨fuel, ⟨a1, m1⟩, htake⟩ := htakes.takeFrame
  obtain ⟨hsame, hindex', ⟨hno, -⟩ | ⟨-, f, hf, hframe, hchange⟩⟩ := takeFrame_cases htake
  · exact hno htakes
  · obtain ⟨m', hfails⟩ := fillPage_fails (m := m1) (by rw [hsame.numPages]; exact hv) (hindex'.trans hindex) hf
      hframe (mt (fillable_sameProgram hsame).mp hfill)
    obtain ⟨⟨mem, rfl⟩, -⟩ := fillPage_cases hfails
    obtain ⟨hcount, htable, -⟩ := (hclean fuel (-1) a1 _ (by rw [h.loadPage_eq, htake]; exact hfails)).1 rfl
    rw [htable] at hframe
    rcases hchange with hchange | hnone
    · exact hchange hcount
    · omega

theorem ToLoad.not_failsCleanly_of_readBack (h : ToLoad a v) (htakes : ¬ TakesFrame m a v)
    (hback : CanReadBack a v) : ¬ FailsCleanly fs m a v := by
  intro hclean
  have hindex := h.index
  rw [Int.toNat_natCast] at hindex
  have hfull : firstFree m = none := not_not.mp fun hfree => htakes (Or.inl hfree)
  have hframe := hback.frame
  obtain ⟨sector, m', hread, hsector, hfill⟩ := fillPage_onDisk fs (m := m) (Int.ofNat_lt.mp h.lt) hindex
    (by omega) (show (a.pageTable v).physicalPage = ((a.pageTable v).physicalPage.toNat : ℕ) by omega) hback.onDisk
  have hload : loadPage fs 0 m a v = .ok (-1, a, m') := by
    rw [h.loadPage_eq, takeFrame_none hfull (by omega)]
    exact hfill
  obtain ⟨-, -, hnot⟩ := (hclean 0 (-1) a m' hload).1 rfl
  exact hnot ⟨h.index, h.absent, hback.onDisk, m, sector, hsector hback.sector, hread⟩

theorem ToLoad.loadPage_ne (h : ToLoad a v) (hfill : Fillable fs a v) {r : Int}
    (hload : loadPage fs fuel m a v = .ok (r, a', m')) : r ≠ -1 := by
  rw [h.loadPage_eq] at hload
  obtain ⟨⟨a1, m1⟩, htake, hload⟩ := bind_eq_ok.mp hload
  obtain ⟨hsame, -, hcases⟩ := takeFrame_cases htake
  rw [((fillable_sameProgram hsame).mpr hfill).fillPage hload]
  rcases hcases with ⟨-, hphys, rfl, -⟩ | ⟨-, f, -, hphys, -⟩
  · exact hphys
  · omega

theorem ToLoad.loadPage_unchanged (h : ToLoad a v) (htakes : ¬ TakesFrame m a v) (hback : ¬ CanReadBack a v)
    (hload : loadPage fs fuel m a v = .ok (-1, a', m')) :
    m'.availablePages = m.availablePages ∧ a'.pageTable = a.pageTable ∧ ¬ ReadBack a v a' m' := by
  rw [h.loadPage_eq] at hload
  obtain ⟨⟨a1, m1⟩, htake, hfill⟩ := bind_eq_ok.mp hload
  obtain ⟨-, -, ⟨-, hphys, rfl, rfl⟩ | ⟨hyes, -⟩⟩ := takeFrame_cases htake
  · obtain ⟨⟨mem, rfl⟩, ⟨-, rfl⟩ | ⟨hframe, -⟩⟩ := fillPage_cases hfill
    · refine ⟨rfl, rfl, fun hread => hback ?_⟩
      obtain ⟨m2, sector, hsector, hread'⟩ := hread.read
      obtain ⟨-, -, hsectors, hframe⟩ := readPage_sector hread' hsector
      exact ⟨hread.onDisk, hsectors, hframe⟩
    · exact absurd hframe.symm hphys
  · exact absurd hyes htakes

end Load

/-- A page that has to be loaded fails cleanly if the executable is there when it is needed, or if the failure leaves
the page with the frame it had. -/
theorem loadPage_failsCleanly_iff (fs : Programs) (m : Memory) (a : AddrSpace) (virtPage : Int) :
    FailsCleanly fs m a virtPage ↔
      (ToLoad a virtPage → Fillable fs a virtPage.toNat ∨
        ¬ TakesFrame m a virtPage.toNat ∧ ¬ CanReadBack a virtPage.toNat) := by
  constructor
  · intro hclean h
    obtain ⟨v, rfl⟩ := Int.eq_ofNat_of_zero_le h.nonneg
    rw [Int.toNat_natCast]
    by_contra hneither
    rw [not_or, not_and_or, not_not, not_not] at hneither
    by_cases htakes : TakesFrame m a v
    · exact h.not_failsCleanly htakes hneither.1 hclean
    · exact h.not_failsCleanly_of_readBack htakes (hneither.2.resolve_left htakes) hclean
  · intro h fuel r a' m' hload
    refine ⟨?_, fun hr => ?_⟩
    · rintro rfl
      by_cases hto : ToLoad a virtPage
      · obtain ⟨v, rfl⟩ := Int.eq_ofNat_of_zero_le hto.nonneg
        rcases h hto with hfill | ⟨htakes, hback⟩
        · exact absurd rfl (hto.loadPage_ne hfill hload)
        · exact hto.loadPage_unchanged htakes hback hload
      · obtain ⟨r, hearly⟩ := loadPage_early fs m hto fuel
        rw [hload] at hearly
        cases hearly
        exact ⟨rfl, rfl, fun hback => hto (hback.toLoad rfl)⟩
    · obtain ⟨w, rfl, hw, hvalid, hphys⟩ := loadPage_valid hload (by omega)
      exact ⟨by omega, by omega, hvalid, hphys⟩

/-- The process of a file with code on page `0`, which can no longer be opened when the page is to be loaded: the call
returns -1, but frame `0` is taken and in the page table. -/
theorem loadPage_fails_with_frame : ∃ (s : Vm) (a a' : AddrSpace) (m' : Memory), s.Reached ∧ s.spaces 0 = some a ∧
    loadPage (fun _ => none) 0 s.memory a 0 = .ok (-1, a', m') ∧ s.memory.availablePages 0 = 0 ∧
    m'.availablePages 0 = 1 ∧ (a.pageTable 0).physicalPage = -1 ∧ (a'.pageTable 0).physicalPage = 0 ∧
    ¬ FailsCleanly (fun _ => none) s.memory a 0 := by
  obtain ⟨s, hboot, -⟩ := Vm.exists_booted
  obtain ⟨a, ha, hheader, hpages, -⟩ := straddle_construct
  obtain ⟨hok, -, htable, -⟩ := construct_eq_ok ha
  have hfree : firstFree s.memory = some 0 := hboot.firstFree
  have hpos : 0 < a.numPages := by omega
  have hcode : (a.mapped 0 0).noffH.code.OnPage (0 : ℕ) := by
    show a.noffH.code.OnPage (0 : ℕ)
    rw [hheader]
    decide
  have hload : loadPage (fun _ => none) 0 s.memory a (0 : ℕ) =
      .ok (-1, a.mapped 0 0, (s.memory.taken 0).zeroed 0) := by
    rw [loadPage_free hok hpos (by rw [htable]; rfl) hfree]
    unfold fillPage
    dsimp only
    rw [(hok.mapped hpos (by decide)).test_eq hpos, ok_bind, mapped_physicalPage]
    simp only [Bool.false_eq_true, if_false]
    rw [bzero_frame _ (by decide), ok_bind, loadSegment_unopened rfl hcode]
    rfl
  have hframe : (a.pageTable 0).physicalPage = -1 := by
    rw [htable]
    rfl
  have hzero := (firstFree_eq_some.mp hfree).2.1
  refine ⟨s.set 0 a s.memory, a, _, _, Vm.Reached.build (Reachable.start hboot) 0 ha, Vm.set_spaces s 0 a _, hload,
    hzero, by simp [Memory.zeroed, Memory.taken], hframe, mapped_physicalPage, fun hclean => ?_⟩
  have htables := ((hclean 0 _ _ _ hload).1 rfl).2.1
  have hentry := congrArg TranslationEntry.physicalPage (congrFun htables 0)
  rw [mapped_physicalPage, hframe] at hentry
  cases hentry

end Nachos
