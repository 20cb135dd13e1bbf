import Nachos.Userprog.LoadPage

/-! # What an eviction does to frames and sectors

`try_store_page` chooses a victim and pushes it out. A victim that has to be written to the swap loses
its frame number before its frame is released, so a call that returns has dropped a clean page: one page
of the process gives its frame to another, and no swap sector is touched. -/
set_option autoImplicit false

namespace Nachos
open Buffer Execution

variable {a a' : AddrSpace} {m m' : Memory} {fuel : ℕ} {virtPage : Int}

/-- Two states of one address space with the same frames and swap sectors. -/
structure AddrSpace.SameFrames (a a' : AddrSpace) : Prop where
  program : a.SameProgram a'
  frames : ∀ v, (a'.pageTable v).physicalPage = (a.pageTable v).physicalPage
  sectors : a'.pageSector = a.pageSector

theorem AddrSpace.SameFrames.trans {b c : AddrSpace} (h : a.SameFrames b) (h' : b.SameFrames c) :
    a.SameFrames c where
  program := h.program.trans h'.program
  frames v := (h'.frames v).trans (h.frames v)
  sectors := h'.sectors.trans h.sectors

/-- Two states of one address space that differ in use bits and in where the search for a victim starts. -/
structure AddrSpace.SameEntries (a a' : AddrSpace) : Prop where
  program : a.SameProgram a'
  entries : ∀ v, ∃ u, a'.pageTable v = { a.pageTable v with use := u }
  sectors : a'.pageSector = a.pageSector

theorem AddrSpace.SameEntries.frames (h : a.SameEntries a') : a.SameFrames a' where
  program := h.program
  frames v := by
    obtain ⟨u, hu⟩ := h.entries v
    rw [hu]
  sectors := h.sectors

theorem AddrSpace.SameEntries.trans {b c : AddrSpace} (h : a.SameEntries b) (h' : b.SameEntries c) :
    a.SameEntries c where
  program := h.program.trans h'.program
  entries v := by
    obtain ⟨u, hu⟩ := h.entries v
    obtain ⟨u', hu'⟩ := h'.entries v
    exact ⟨u', by rw [hu', hu]⟩
  sectors := h'.sectors.trans h.sectors

/-! ## The victim -/

/-- The first part of `try_store_page`: the page to push out, none if the best one is shared. -/
def chooseVictim (m : Memory) (a : AddrSpace) : Call (AddrSpace × Option ℕ) :=
  if 0 ≤ a.victumOffset ∧ a.victumOffset < a.numPages then do
    let s ← scanVictims m a.numPages a.victumOffset (a.numPages - 1) 1
      { pageTable := a.pageTable, bestPage := a.victumOffset.toNat, bestUsed := false, unusedOffset := -1 }
    let a := { a with pageTable := s.pageTable }
    if ← sharedFrame m (a.pageTable s.bestPage) then return (a, none)
    else return ({ a with victumOffset := s.unusedOffset }, some s.bestPage)
  else .error (.outOfBounds .pageTable)

/-- The second part. -/
def pushVictim (m : Memory) : AddrSpace × Option ℕ → Call (Int × AddrSpace × Memory)
  | (a, none) => .ok (-1, a, m)
  | (a, some v) => pushOut m a v

theorem tryStorePage_eq (m : Memory) (a : AddrSpace) : tryStorePage m a = chooseVictim m a >>= pushVictim m := by
  unfold tryStorePage chooseVictim
  split
  · rw [bind_assoc]
    congr 1
    funext s
    dsimp only
    rw [bind_assoc]
    congr 1
    funext shared
    cases shared <;> rfl
  · rfl

theorem noteUse_entry (s : VictimScan) (curr v : ℕ) :
    ∃ u, (s.noteUse curr).pageTable v = { s.pageTable v with use := u } := by
  unfold VictimScan.noteUse
  split
  · split
    · by_cases hv : v = curr
      · subst hv
        exact ⟨false, Function.update_self _ _ _⟩
      · exact ⟨(s.pageTable v).use, Function.update_of_ne hv _ _⟩
    · exact ⟨_, rfl⟩
  · exact ⟨_, rfl⟩

theorem noteUse_bestPage (s : VictimScan) (curr : ℕ) : (s.noteUse curr).bestPage = s.bestPage := by
  unfold VictimScan.noteUse
  split
  · split <;> rfl
  · rfl

/-- The search for a victim changes use bits only, and its choice is a page of the space. -/
theorem scanVictims_eq_ok {numPages : ℕ} (hpos : 0 < numPages) {off : Int} (n i : ℕ) {s s' : VictimScan}
    (h : scanVictims m numPages off n i s = .ok s') (hbest : s.bestPage < numPages) :
    s'.bestPage < numPages ∧ ∀ v, ∃ u, s'.pageTable v = { s.pageTable v with use := u } := by
  induction n generalizing i s with
  | zero =>
    cases h
    exact ⟨hbest, fun v => ⟨_, rfl⟩⟩
  | succ n ih =>
    unfold scanVictims at h
    dsimp only at h
    have hcurr : toUnsigned (off + i) % numPages < numPages := Nat.mod_lt _ hpos
    -- whether the page becomes the best one or not, its use bit has been noted
    have hnoted : ∀ t : VictimScan, t.pageTable = (s.noteUse (toUnsigned (off + i) % numPages)).pageTable →
        (∀ v, ∃ u, s'.pageTable v = { t.pageTable v with use := u }) →
        ∀ v, ∃ u, s'.pageTable v = { s.pageTable v with use := u } := by
      intro t ht hs' v
      obtain ⟨u, hu⟩ := hs' v
      obtain ⟨u', hu'⟩ := noteUse_entry s (toUnsigned (off + i) % numPages) v
      exact ⟨u, by rw [hu, ht, hu']⟩
    split at h
    · exact ih (i + 1) h hbest
    · obtain ⟨shared, -, h⟩ := bind_eq_ok.mp h
      split at h
      · obtain ⟨hbest', hrest⟩ := ih (i + 1) h hcurr
        exact ⟨hbest', hnoted _ rfl hrest⟩
      · split at h
        · obtain ⟨hbest', hrest⟩ := ih (i + 1) h hcurr
          exact ⟨hbest', hnoted _ rfl hrest⟩
        · split at h
          · obtain ⟨hbest', hrest⟩ := ih (i + 1) h hcurr
            exact ⟨hbest', hnoted _ rfl hrest⟩
          · split at h
            · cases h
              exact ⟨hcurr, hnoted _ rfl fun v => ⟨_, rfl⟩⟩
            · obtain ⟨hbest', hrest⟩ := ih (i + 1) h (by rw [noteUse_bestPage]; exact hbest)
              exact ⟨hbest', hnoted _ rfl hrest⟩

theorem chooseVictim_entries {victim : Option ℕ} (hchoose : chooseVictim m a = .ok (a', victim)) :
    a.SameEntries a' ∧ ∀ p, victim = some p → p < a.numPages := by
  unfold chooseVictim at hchoose
  split at hchoose
  · next hoff =>
    obtain ⟨s, hscan, hchoose⟩ := bind_eq_ok.mp hchoose
    obtain ⟨hbest, hentries⟩ := scanVictims_eq_ok (by omega) _ _ hscan (by dsimp only; omega)
    obtain ⟨shared, -, hchoose⟩ := bind_eq_ok.mp hchoose
    cases shared with
    | true =>
      cases hchoose
      exact ⟨⟨⟨rfl, rfl, rfl, rfl⟩, hentries, rfl⟩, by simp⟩
    | false =>
      cases hchoose
      refine ⟨⟨⟨rfl, rfl, rfl, rfl⟩, hentries, rfl⟩, ?_⟩
      rintro p hp
      cases hp
      exact hbest
  · cases hchoose

theorem chooseVictim_eq_ok (h : a.Ok) {victim : Option ℕ} (hchoose : chooseVictim m a = .ok (a', victim)) :
    a'.Ok ∧ a.SameFrames a' ∧ ∀ p, victim = some p → p < a.numPages ∧ IsFrame (a'.pageTable p).physicalPage := by
  obtain ⟨hsame, hindex⟩ := chooseVictim_entries hchoose
  have hok : a'.Ok := by
    refine h.of_entries hsame.program fun v hv => ?_
    obtain ⟨u, hu⟩ := hsame.entries v
    have he := h.entry v hv
    rw [hu]
    exact ⟨he.index, he.frame, he.writable⟩
  refine ⟨hok, hsame.frames, fun p hp => ⟨hindex p hp, ?_⟩⟩
  subst hp
  unfold chooseVictim at hchoose
  split at hchoose
  · obtain ⟨s, -, hchoose⟩ := bind_eq_ok.mp hchoose
    obtain ⟨shared, hshared, hchoose⟩ := bind_eq_ok.mp hchoose
    cases shared with
    | true => cases hchoose
    | false =>
      cases hchoose
      have hentry := hok.entry s.bestPage (by rw [hsame.program.numPages]; exact hindex _ rfl)
      exact (sharedFrame_meets m hentry).of_ok hshared
  · cases hchoose

/-- With no other page valid the page at the victim index is chosen. -/
theorem chooseVictim_first {f : ℕ} (h : a.Ok) (hpos : 0 < a.numPages) (hvictim : a.victumOffset = 0)
    (hf : f < numPhysPages) (hframe : (a.pageTable 0).physicalPage = f) (hcount : m.availablePages f = 1)
    (habsent : ∀ u < a.numPages, u ≠ 0 → (a.pageTable u).valid = false) :
    chooseVictim m a = .ok ({ a with victumOffset := -1 }, some 0) := by
  have hscan : scanVictims m a.numPages a.victumOffset (a.numPages - 1) 1
      ⟨a.pageTable, a.victumOffset.toNat, false, -1⟩ =
        .ok ⟨a.pageTable, a.victumOffset.toNat, false, -1⟩ := by
    apply scanVictims_skip
    intro k hk hk'
    have hfits := h.fits
    simp only [numPhysPages] at hfits
    have hidx : toUnsigned (a.victumOffset + k) % a.numPages = k := by
      rw [hvictim]
      unfold toUnsigned
      rw [Nat.mod_eq_of_lt] <;> omega
    rw [hidx]
    exact habsent k (by omega) (by omega)
  have hshared : sharedFrame m (a.pageTable 0) = .ok false := by
    unfold sharedFrame Memory.frameCount
    rw [(h.entry 0 hpos).writable, hframe]
    simp [hcount, hf]
  unfold chooseVictim
  rw [if_pos ⟨by omega, by omega⟩, hscan, ok_bind, hvictim]
  dsimp only [Int.toNat_zero]
  rw [hshared]
  rfl

/-! ## Pushing it out -/

theorem setFrameCount_eq_ok {frame count : Int} (h : m.setFrameCount frame count = .ok m') :
    ∃ f : ℕ, f < numPhysPages ∧ frame = f ∧
      m' = { m with availablePages := Function.update m.availablePages f count } := by
  unfold Memory.setFrameCount at h
  split at h
  · next hrange =>
    cases h
    exact ⟨frame.toNat, by omega, by omega, rfl⟩
  · cases h

/-- A victim that has been written out ends in an access to `available_pages[-1]`. -/
theorem pushOut_written {v : ℕ} (hdirty : (a.pageTable v).dirty = true ∨ (a.pageTable v).readOnly = true)
    {y : Int × AddrSpace × Memory}
    (hwrite : writePage m a (a.pageTable v).physicalPage (a.pageTable v).virtualPage = .ok y) :
    pushOut m a v = .error (.outOfBounds .availablePages) := by
  unfold pushOut releaseFrame
  dsimp only
  rw [if_pos hdirty, hwrite, ok_bind]
  cases hreadOnly : (a.pageTable v).readOnly with
  | true => simp [Memory.frameCount, AddrSpace.setEntry]
  | false => simp [Memory.setFrameCount, AddrSpace.setEntry]

theorem pushOut_dirty {v : ℕ} (hdirty : (a.pageTable v).dirty = true ∨ (a.pageTable v).readOnly = true)
    (x : Int × AddrSpace × Memory) : pushOut m a v ≠ .ok x := by
  intro h
  have h' := h
  unfold pushOut at h'
  dsimp only at h'
  rw [if_pos hdirty] at h'
  obtain ⟨y, hwrite, -⟩ := bind_eq_ok.mp h'
  rw [pushOut_written hdirty hwrite] at h
  cases h

theorem pushOut_eq_ok {v : ℕ} {r : Int} (h : pushOut m a v = .ok (r, a', m')) :
    ∃ f : ℕ, f < numPhysPages ∧ (a.pageTable v).physicalPage = f ∧ r = f ∧
      a' = a.setEntry v { a.pageTable v with physicalPage := -1 } ∧
      m' = { m with availablePages := Function.update m.availablePages f 0 } := by
  by_cases hdirty : (a.pageTable v).dirty = true ∨ (a.pageTable v).readOnly = true
  · exact absurd h (pushOut_dirty hdirty _)
  · unfold pushOut at h
    dsimp only at h
    rw [if_neg hdirty] at h
    obtain ⟨m1, hset, h⟩ := bind_eq_ok.mp h
    cases h
    obtain ⟨f, hf, hframe, hm⟩ := setFrameCount_eq_ok hset
    exact ⟨f, hf, hframe, hframe, rfl, hm⟩

theorem storePage_eq_ok (fuel : ℕ) {r : Int} (hstore : storePage fuel m a = .ok (r, a', m')) :
    ∃ (b : AddrSpace) (v f : ℕ), a.SameEntries b ∧ v < a.numPages ∧ f < numPhysPages ∧
      (b.pageTable v).physicalPage = f ∧ r = f ∧
      a' = b.setEntry v { b.pageTable v with physicalPage := -1 } ∧
      m' = { m with availablePages := Function.update m.availablePages f 0 } := by
  induction fuel generalizing a with
  | zero => cases hstore
  | succ fuel ih =>
    unfold storePage at hstore
    rw [tryStorePage_eq, bind_assoc] at hstore
    obtain ⟨⟨a1, victim⟩, hchoose, hstore⟩ := bind_eq_ok.mp hstore
    obtain ⟨hsame, hindex⟩ := chooseVictim_entries hchoose
    obtain ⟨⟨r1, a2, m2⟩, hpush, hstore⟩ := bind_eq_ok.mp hstore
    cases victim with
    | none =>
      cases hpush
      dsimp only at hstore
      rw [if_pos rfl] at hstore
      obtain ⟨b, v, f, hb, hv, hrest⟩ := ih hstore
      exact ⟨b, v, f, hsame.trans hb, by rwa [← hsame.program.numPages], hrest⟩
    | some p =>
      obtain ⟨f, hf, hframe, rfl, rfl, rfl⟩ := pushOut_eq_ok hpush
      dsimp only at hstore
      rw [if_neg (by omega)] at hstore
      cases hstore
      exact ⟨a1, p, f, hsame, hindex p rfl, hf, hframe, rfl, rfl, rfl⟩

/-! ## Loading a page -/

/-- What a load that returns has done to the frames of the address space and to the use counts: nothing,
a free frame was taken for page `w`, or page `u` gave its frame to page `w`. -/
inductive FrameMove (m : Memory) (a : AddrSpace) (w : ℕ) (a' : AddrSpace) (m' : Memory) : Prop
  | keep (hsame : a.SameFrames a') (hcount : m'.availablePages = m.availablePages)
  | take (f : ℕ) (e : TranslationEntry) (hfree : firstFree m = some f) (he : e.physicalPage = f)
      (ha : a' = a.setEntry w e) (hcount : m'.availablePages = Function.update m.availablePages f 1)
  | move (b : AddrSpace) (u f : ℕ) (e e' : TranslationEntry) (hsame : a.SameFrames b) (hu : u < a.numPages)
      (hframe : (a.pageTable u).physicalPage = f) (hnone : (a.pageTable w).physicalPage = -1)
      (he : e.physicalPage = -1) (he' : e'.physicalPage = f) (ha : a' = (b.setEntry u e).setEntry w e')
      (hcount : m'.availablePages = Function.update (Function.update m.availablePages f 0) f 1)

theorem setEntry_valid (a : AddrSpace) (w : ℕ) (e : TranslationEntry) :
    (a.setEntry w e).setEntry w { (a.setEntry w e).pageTable w with valid := true } =
      a.setEntry w { e with valid := true } := by
  simp [AddrSpace.setEntry]

theorem takeFrame_move {w : ℕ} (htake : takeFrame fuel m a w = .ok (a', m')) :
    FrameMove m a w a' m' ∧ a'.pageSector = a.pageSector ∧
      m'.availableSectors = m.availableSectors ∧ m'.disk = m.disk := by
  unfold takeFrame at htake
  cases hfree : firstFree m with
  | some f =>
    simp only [hfree] at htake
    cases htake
    exact ⟨.take f _ hfree rfl rfl rfl, rfl, rfl, rfl⟩
  | none =>
    simp only [hfree] at htake
    split at htake
    · next hnone =>
      obtain ⟨⟨r, a1, m1⟩, hstore, htake⟩ := bind_eq_ok.mp htake
      obtain ⟨b, u, f, hentries, hu, hf, hframe, rfl, rfl, rfl⟩ := storePage_eq_ok fuel hstore
      have hsame := hentries.frames
      obtain ⟨m2, hset, htake⟩ := bind_eq_ok.mp htake
      cases htake
      obtain ⟨f', hf', hff, rfl⟩ := setFrameCount_eq_ok hset
      have hfeq : f' = f := by omega
      subst hfeq
      exact ⟨.move b u f' _ _ hsame hu ((hsame.frames u).symm.trans hframe) hnone rfl rfl rfl rfl,
        hsame.sectors, rfl, rfl⟩
    · cases htake
      exact ⟨.keep ⟨.refl a, fun _ => rfl, rfl⟩ rfl, rfl, rfl, rfl⟩

/-- Marking the page valid moves no frame. -/
theorem FrameMove.valid {m1 : Memory} {a1 : AddrSpace} {w : ℕ} (h : FrameMove m a w a1 m1)
    (hm : m'.availablePages = m1.availablePages) :
    FrameMove m a w (a1.setEntry w { a1.pageTable w with valid := true }) m' := by
  cases h with
  | keep hsame hcount =>
    refine .keep ⟨hsame.program.trans (setEntry_sameProgram a1 w _), ?_, hsame.sectors⟩ (hm.trans hcount)
    intro v
    by_cases hv : v = w
    · subst hv
      rw [setEntry_pageTable, Function.update_self]
      exact hsame.frames v
    · rw [setEntry_pageTable, Function.update_of_ne hv]
      exact hsame.frames v
  | take f e hfree he ha hcount =>
    subst ha
    rw [setEntry_valid]
    exact .take f { e with valid := true } hfree he rfl (hm.trans hcount)
  | move b u f e e' hsame hu hframe hnone he he' ha hcount =>
    subst ha
    rw [setEntry_valid]
    exact .move b u f e { e' with valid := true } hsame hu hframe hnone he he' rfl (hm.trans hcount)

theorem FrameMove.of_memory {m1 : Memory} {a1 : AddrSpace} {w : ℕ} (h : FrameMove m a w a1 m1)
    (hm : m'.availablePages = m1.availablePages) : FrameMove m a w a1 m' := by
  cases h with
  | keep hsame hcount => exact .keep hsame (hm.trans hcount)
  | take f e hfree he ha hcount => exact .take f e hfree he ha (hm.trans hcount)
  | move b u f e e' hsame hu hframe hnone he he' ha hcount =>
    exact .move b u f e e' hsame hu hframe hnone he he' ha (hm.trans hcount)

/-- A load that returns moves at most one frame and leaves the swap and the disk alone. -/
theorem loadPage_move {fs : Programs} {v r : Int} (hload : loadPage fs fuel m a v = .ok (r, a', m')) :
    a'.pageSector = a.pageSector ∧ m'.availableSectors = m.availableSectors ∧ m'.disk = m.disk ∧
      ((a' = a ∧ m' = m) ∨
        ∃ w : ℕ, v = w ∧ w < a.numPages ∧ (a.pageTable w).valid = false ∧ FrameMove m a w a' m') := by
  rcases loadPage_cases hload with ⟨rfl, rfl⟩ | ⟨w, rfl, hw, hinvalid, a1, m1, htake, hfill⟩
  · exact ⟨rfl, rfl, rfl, Or.inl ⟨rfl, rfl⟩⟩
  · obtain ⟨hmove, hpage, hsectors, hdisk⟩ := takeFrame_move htake
    obtain ⟨⟨mem, rfl⟩, ⟨-, rfl⟩ | ⟨-, rfl⟩⟩ := fillPage_cases hfill
    · exact ⟨hpage, hsectors, hdisk, Or.inr ⟨w, rfl, hw, hinvalid, hmove.of_memory rfl⟩⟩
    · exact ⟨hpage, hsectors, hdisk, Or.inr ⟨w, rfl, hw, hinvalid, hmove.valid rfl⟩⟩

/-! ## The pages written out by a load -/

/-- `store_page` comes to write page `p` out, with the address space as it is then. -/
inductive StoresOut (m : Memory) : AddrSpace → AddrSpace → ℕ → Prop
  | now {a a' : AddrSpace} {p : ℕ} (hchoose : chooseVictim m a = .ok (a', some p))
      (hdirty : (a'.pageTable p).dirty = true ∨ (a'.pageTable p).readOnly = true) : StoresOut m a a' p
  | again {a a₁ a' : AddrSpace} {p : ℕ} (hchoose : chooseVictim m a = .ok (a₁, none))
      (h : StoresOut m a₁ a' p) : StoresOut m a a' p

theorem StoresOut.dirty {p : ℕ} (h : StoresOut m a a' p) :
    (a'.pageTable p).dirty = true ∨ (a'.pageTable p).readOnly = true := by
  induction h with
  | now _ hdirty => exact hdirty
  | again _ _ ih => exact ih

theorem StoresOut.not_returns {p : ℕ} (h : StoresOut m a a' p) (fuel : ℕ)
    (x : Int × AddrSpace × Memory) : storePage fuel m a ≠ .ok x := by
  intro hstore
  induction h generalizing fuel with
  | now hchoose hdirty =>
    cases fuel with
    | zero => cases hstore
    | succ fuel =>
      obtain ⟨y, hpush, -⟩ := bind_eq_ok.mp hstore
      rw [tryStorePage_eq, hchoose, ok_bind] at hpush
      exact pushOut_dirty hdirty y hpush
  | again hchoose _ ih =>
    cases fuel with
    | zero => cases hstore
    | succ fuel =>
      unfold Nachos.storePage at hstore
      rw [tryStorePage_eq, hchoose] at hstore
      exact ih fuel hstore

/-- There `store_page` does what `try_store_page` does to the page, which starts with `writePage`. -/
theorem StoresOut.storePage {p : ℕ} (h : StoresOut m a a' p) :
    ∃ n, ∀ fuel, storePage (fuel + n + 1) m a = do
      let (rtn, a, m) ← pushOut m a' p
      if rtn = -1 then storePage fuel m a else return (rtn, a, m) := by
  induction h with
  | now hchoose hdirty =>
    refine ⟨0, fun fuel => ?_⟩
    rw [Nat.add_zero, Nachos.storePage, tryStorePage_eq, hchoose, ok_bind]
    rfl
  | again hchoose _ ih =>
    obtain ⟨n, hn⟩ := ih
    refine ⟨n + 1, fun fuel => ?_⟩
    rw [← hn fuel, Nachos.storePage, tryStorePage_eq, hchoose, ok_bind]
    rfl

/-- `load_page` calls `store_page`. -/
def NeedsVictim (m : Memory) (a : AddrSpace) (virtPage : Int) : Prop :=
  0 ≤ virtPage ∧ virtPage < a.numPages ∧ (a.pageTable virtPage.toNat).virtualPage = virtPage ∧
    (a.pageTable virtPage.toNat).valid = false ∧ firstFree m = none ∧
    (a.pageTable virtPage.toNat).physicalPage = -1

theorem NeedsVictim.loadPage (h : NeedsVictim m a virtPage) (fs : Programs) (fuel : ℕ) :
    loadPage fs fuel m a virtPage = (do
      let (frame, a, m) ← storePage fuel m a
      let m ← m.setFrameCount frame 1
      fillPage fs m (a.setEntry virtPage.toNat { a.pageTable virtPage.toNat with physicalPage := frame, use := true })
        virtPage.toNat) := by
  obtain ⟨hnonneg, hlt, hindex, hinvalid, hfull, hnone⟩ := h
  unfold Nachos.loadPage takeFrame
  rw [if_neg (by omega), if_neg (not_not.mpr hindex), hinvalid, if_neg (by decide), hfull]
  dsimp only
  rw [if_pos hnone]
  simp only [bind_assoc, pure_bind]

/-- The load of a page has page `p` written to `sector`. -/
def LoadWrites (m : Memory) (a : AddrSpace) (virtPage : Int) (p : ℕ) (sector : Int) : Prop :=
  NeedsVictim m a virtPage ∧ ∃ a' x, StoresOut m a a' p ∧
    writePage m a' (a'.pageTable p).physicalPage (a'.pageTable p).virtualPage = .ok (sector, x)

/-- `load_page` has then written the page, and goes on to `available_pages[-1]`. -/
theorem LoadWrites.loadPage {sector : Int} {p : ℕ} (h : LoadWrites m a virtPage p sector) (fs : Programs) :
    ∃ n, ∀ fuel, loadPage fs (fuel + n + 1) m a virtPage = .error (.outOfBounds .availablePages) := by
  obtain ⟨hneeds, a', x, hstores, hwrite⟩ := h
  obtain ⟨n, hn⟩ := hstores.storePage
  refine ⟨n, fun fuel => ?_⟩
  rw [hneeds.loadPage, hn, pushOut_written hstores.dirty hwrite]
  rfl

/-- The load finds a frame, or its victim is clean. -/
def Spared (m : Memory) (a : AddrSpace) (virtPage : Int) : Prop :=
  ¬ (NeedsVictim m a virtPage ∧ ∃ a' p, StoresOut m a a' p)

/-- No other load returns. -/
theorem spared_of_loadPage {fs : Programs} {x : Int × AddrSpace × Memory}
    (h : loadPage fs fuel m a virtPage = .ok x) : Spared m a virtPage := by
  rintro ⟨hneeds, a', p, hstores⟩
  rw [hneeds.loadPage] at h
  obtain ⟨y, hstore, -⟩ := bind_eq_ok.mp h
  exact hstores.not_returns fuel y hstore

end Nachos
