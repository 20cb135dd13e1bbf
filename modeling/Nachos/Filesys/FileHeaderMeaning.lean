import Nachos.Filesys.FileSys

/-! # The sectors of a file header

A header of bounded size is well formed when the sectors it lists are distinct and in range. What
`Allocate` lists was free and is marked afterwards, `Deallocate` clears exactly what is listed, and a
header survives the way to its sector and back. -/
set_option autoImplicit false

namespace Nachos
open Buffer Execution

namespace FileHeader

/-- The data sectors a header lists. -/
def sectors (h : FileHeader) : List Int := (List.range h.numSectors.toNat).map h.dataSectors

/-- The sizes fit together and into the header. -/
structure Shaped (h : FileHeader) : Prop where
  nonneg : 0 ≤ h.numBytes
  covered : h.numBytes ≤ h.numSectors * sectorSize
  fits : h.numSectors ≤ numDirect

variable {h : FileHeader}

theorem mem_sectors {x : Int} : x ∈ h.sectors ↔ ∃ i : ℕ, (i : Int) < h.numSectors ∧ h.dataSectors i = x := by
  unfold sectors
  rw [List.mem_map]
  constructor
  · rintro ⟨i, hi, hx⟩
    have := List.mem_range.mp hi
    exact ⟨i, by omega, hx⟩
  · rintro ⟨i, hi, hx⟩
    exact ⟨i, List.mem_range.mpr (by omega), hx⟩

theorem Shaped.wellFormed (hs : h.Shaped) (nodup : h.sectors.Nodup)
    (range : ∀ x ∈ h.sectors, 0 ≤ x ∧ x < Nachos.numSectors) : h.WellFormed where
  nonneg := hs.nonneg
  covered := hs.covered
  fits := hs.fits
  inRange i hi := range _ (mem_sectors.mpr ⟨i, hi, rfl⟩)
  distinct i j hi hj he :=
    List.inj_on_of_nodup_map nodup (List.mem_range.mpr (by omega)) (List.mem_range.mpr (by omega)) he

theorem Shaped.numBytes_le (hs : h.Shaped) : h.numBytes ≤ maxFileSize := by
  have h1 := hs.covered
  have h2 := hs.fits
  simp only [maxFileSize, numDirect, sectorSize] at *
  omega

/-! ## Allocation -/

theorem map_range_succ_update (f : ℕ → Int) (n : ℕ) (x : Int) :
    (List.range (n + 1)).map (Function.update f n x) = (List.range n).map f ++ [x] := by
  rw [List.range_succ, List.map_append, List.map_singleton, Function.update_self]
  congr 1
  apply List.map_congr_left
  intro i hi
  have := List.mem_range.mp hi
  exact Function.update_of_ne (by omega) _ _

/-- What `n` rounds of `Allocate` list was clear, and is marked afterwards. -/
theorem allocateBelow_spec (h : FileHeader) (b : BitMap) (n : ℕ) (hn : n ≤ numDirect)
    (hc : n ≤ b.clearCount) :
    ∃ (h' : FileHeader) (b' : BitMap), h.allocateBelow b n = .ok (h', b') ∧
      h'.numBytes = h.numBytes ∧ h'.numSectors = h.numSectors ∧
      ((List.range n).map h'.dataSectors).Nodup ∧
      (∀ x ∈ (List.range n).map h'.dataSectors, 0 ≤ x ∧ x < b.numBits ∧ b.bit x.toNat = false) ∧
      b'.numBits = b.numBits ∧
      (∀ i : ℕ, b'.bit i = true ↔ b.bit i = true ∨ (i : Int) ∈ (List.range n).map h'.dataSectors) ∧
      b.clearCount = b'.clearCount + n := by
  induction n with
  | zero => exact ⟨h, b, rfl, rfl, rfl, by simp, by simp, rfl, by simp, rfl⟩
  | succ n ih =>
    obtain ⟨g, c, hrun, hbytes, hsec, hnd, hclear, hbits, hset, hcount⟩ := ih (by omega) (by omega)
    obtain ⟨w, d, hfind, hlt, hw, hbits', hset', hcount'⟩ := c.find_of_clearCount (by omega)
    -- the sector found is none of those listed: they are marked by now
    have hfresh : (w : Int) ∉ (List.range n).map g.dataSectors := by
      intro hmem
      rw [(hset w).mpr (Or.inr hmem)] at hw
      cases hw
    have hwasClear : b.bit w = false := by
      cases hb : b.bit w with
      | false => rfl
      | true => rw [(hset w).mpr (Or.inl hb)] at hw; cases hw
    refine ⟨{ g with dataSectors := Function.update g.dataSectors n w }, d, ?_, hbytes, hsec, ?_⟩
    · simp only [allocateBelow, hrun, hfind, ok_bind, pure_eq_ok, show n < numDirect by omega, if_true]
    · simp only [map_range_succ_update]
      refine ⟨?_, ?_, hbits'.trans hbits, ?_, by omega⟩
      · rw [List.nodup_append]
        refine ⟨hnd, List.nodup_singleton _, ?_⟩
        rintro a ha x hx rfl
        rw [List.mem_singleton.mp hx] at ha
        exact hfresh ha
      · intro x hx
        rcases List.mem_append.mp hx with hx | hx
        · exact hclear x hx
        · rw [List.mem_singleton.mp hx, Int.toNat_natCast]
          exact ⟨by omega, by omega, hwasClear⟩
      · intro i
        rw [hset', List.mem_append, List.mem_singleton, ← or_assoc, ← hset]
        by_cases hi : i = w <;> simp [hi]

theorem allocate_fail (h : FileHeader) (b : BitMap) (size : Int)
    (hc : (b.clearCount : Int) < divRoundUp size sectorSize) :
    ∃ h', h.allocate b size = .ok (false, h', b) := by
  refine ⟨{ h with numBytes := size, numSectors := divRoundUp size sectorSize }, ?_⟩
  simp only [allocate, b.numClear_eq, ok_bind, pure_eq_ok, hc, if_true]

theorem allocate_ok (h : FileHeader) (b : BitMap) (size : Int) (h0 : 0 ≤ size)
    (hmax : size ≤ maxFileSize) (hc : divRoundUp size sectorSize ≤ b.clearCount) :
    ∃ (h' : FileHeader) (b' : BitMap), h.allocate b size = .ok (true, h', b') ∧ h'.Shaped ∧
      h'.numBytes = size ∧ h'.sectors.Nodup ∧
      (∀ x ∈ h'.sectors, 0 ≤ x ∧ x < b.numBits ∧ b.bit x.toNat = false) ∧
      b'.numBits = b.numBits ∧ (∀ i : ℕ, b'.bit i = true ↔ b.bit i = true ∨ (i : Int) ∈ h'.sectors) ∧
      (b.clearCount : Int) = b'.clearCount + divRoundUp size sectorSize := by
  have hround : divRoundUp size sectorSize = (size + 127) / 128 := divRoundUp_of_nonneg h0
  simp only [maxFileSize, numDirect, sectorSize] at hmax
  obtain ⟨g, c, hrun, hbytes, hsec, hnd, hclear, hbits, hset, hcount⟩ :=
    allocateBelow_spec { h with numBytes := size, numSectors := divRoundUp size sectorSize } b
      (divRoundUp size sectorSize).toNat (by rw [hround]; simp only [numDirect, sectorSize]; omega) (by omega)
  have hlist : (List.range (divRoundUp size sectorSize).toNat).map g.dataSectors = g.sectors := by
    unfold sectors
    rw [hsec]
  rw [hlist] at hnd hclear hset
  refine ⟨g, c, ?_, ⟨by rw [hbytes]; exact h0, ?_, ?_⟩, hbytes, hnd, hclear, hbits, hset, by omega⟩
  · simp only [allocate, b.numClear_eq, ok_bind, pure_eq_ok, if_neg (Int.not_lt.mpr hc), hrun]
  · rw [hbytes, hsec, hround]
    simp only [sectorSize]
    omega
  · rw [hsec, hround]
    simp only [numDirect, sectorSize]
    omega

/-- Whatever the size: the size is noted, and the map keeps its length. -/
theorem allocateBelow_keeps {h h' : FileHeader} {b b' : BitMap} {n : ℕ}
    (hrun : h.allocateBelow b n = .ok (h', b')) : h'.numBytes = h.numBytes ∧ b'.numBits = b.numBits := by
  induction n generalizing h' b' with
  | zero =>
    cases hrun
    exact ⟨rfl, rfl⟩
  | succ n ih =>
    obtain ⟨⟨g, c⟩, hbelow, hrun⟩ := bind_eq_ok.mp hrun
    obtain ⟨⟨sector, e⟩, hfind, hrun⟩ := bind_eq_ok.mp hrun
    obtain ⟨hbytes, hbits⟩ := ih hbelow
    have hkept : e.numBits = c.numBits := by
      rcases Int.lt_or_le c.numBits 0 with hneg | hnonneg
      · have hnone : c.numBits.toNat = 0 := by omega
        simp only [BitMap.find, hnone] at hfind
        cases hfind
        rfl
      · rcases c.findFrom_spec 0 c.numBits.toNat (by omega) with ⟨hnone, -⟩ | ⟨w, c', hw, -, -, -, hbits', -⟩
        · simp only [BitMap.find, hnone] at hfind
          cases hfind
          rfl
        · simp only [BitMap.find, hw] at hfind
          cases hfind
          exact hbits'
    dsimp only at hrun
    split at hrun
    · cases hrun
      exact ⟨hbytes, hkept.trans hbits⟩
    · cases hrun

theorem allocate_keeps {h h' : FileHeader} {b b' : BitMap} {size : Int} {r : Bool}
    (hrun : h.allocate b size = .ok (r, h', b')) : h'.numBytes = size ∧ b'.numBits = b.numBits := by
  unfold allocate at hrun
  rw [b.numClear_eq, ok_bind] at hrun
  dsimp only at hrun
  split at hrun
  · cases hrun
    exact ⟨rfl, rfl⟩
  · obtain ⟨⟨g, c⟩, hbelow, hrun⟩ := bind_eq_ok.mp hrun
    cases hrun
    exact allocateBelow_keeps hbelow

theorem deallocateBelow_spec (h : FileHeader) (b : BitMap) (n : ℕ) (hn : n ≤ numDirect)
    (hnd : ((List.range n).map h.dataSectors).Nodup)
    (hmarked : ∀ x ∈ (List.range n).map h.dataSectors, 0 ≤ x ∧ x < b.numBits ∧ b.bit x.toNat = true) :
    ∃ b', h.deallocateBelow b n = .ok b' ∧ b'.numBits = b.numBits ∧
      ∀ i : ℕ, b'.bit i = true ↔ b.bit i = true ∧ (i : Int) ∉ (List.range n).map h.dataSectors := by
  induction n with
  | zero => exact ⟨b, rfl, rfl, by simp⟩
  | succ n ih =>
    rw [List.range_succ, List.map_append, List.map_singleton] at hnd hmarked ⊢
    obtain ⟨hnd', -, hdisj⟩ := List.nodup_append.mp hnd
    obtain ⟨c, hrun, hbits, hset⟩ := ih (by omega) hnd' fun x hx => hmarked x (List.mem_append_left _ hx)
    obtain ⟨h0, hlt, hbit⟩ := hmarked (h.dataSectors n) (by simp)
    obtain ⟨w, hw⟩ := Int.eq_ofNat_of_zero_le h0
    rw [hw] at h0 hlt hbit hdisj
    rw [Int.toNat_natCast] at hbit
    have hstill : c.bit w = true :=
      (hset w).mpr ⟨hbit, fun hmem => hdisj _ hmem _ (by simp) rfl⟩
    obtain ⟨d, hclear, hbits', hset'⟩ := c.clear_spec (w := w) (by omega)
    refine ⟨d, ?_, hbits'.trans hbits, fun i => ?_⟩
    · simp only [deallocateBelow, hrun, hw, c.test_eq (w := w) (by omega), hstill, assertThat, hclear,
        ok_bind, if_true, show n < numDirect by omega]
    · rw [hset', List.mem_append, List.mem_singleton, hw]
      by_cases hi : i = w
      · simp [hi]
      · simp [hi, hset]

theorem deallocate_spec (hs : h.Shaped) (b : BitMap) (hnd : h.sectors.Nodup)
    (hmarked : ∀ x ∈ h.sectors, 0 ≤ x ∧ x < b.numBits ∧ b.bit x.toNat = true) :
    ∃ b', h.deallocate b = .ok b' ∧ b'.numBits = b.numBits ∧
      ∀ i : ℕ, b'.bit i = true ↔ b.bit i = true ∧ (i : Int) ∉ h.sectors :=
  deallocateBelow_spec h b h.numSectors.toNat (by have := hs.fits; omega) hnd hmarked

/-! ## The header in its sector -/

theorem wordAt_image (h : FileHeader) (m : Image) {k : ℕ} (hk : 4 * k + 4 ≤ sectorSize) :
    wordAt (copy m 0 h.image sectorSize) (4 * k) = h.words k := by
  rw [← wordAt_ofWords h.words k]
  apply wordAt_congr
  intro j hj
  rw [copy_from_zero _ _ (by omega)]
  rfl

theorem numBytes_ofImage (h : FileHeader) (m : Image) (hlow : -2147483648 ≤ h.numBytes)
    (hhigh : h.numBytes < 2147483648) : (ofImage (copy m 0 h.image sectorSize)).numBytes = h.numBytes := by
  have hword := wordAt_image h m (k := 0) (by decide)
  simp only [Nat.mul_zero] at hword
  simp only [ofImage, hword, words]
  exact toInt_ofInt_of_bounds hlow hhigh

/-- A header of bounded size is read back as it was written, whatever ints its table has. -/
theorem ofImage_image_of_ints (hs : h.Shaped) (ints : ∀ x ∈ h.sectors, 0 ≤ x ∧ x < 2147483648) (m : Image) :
    (ofImage (copy m 0 h.image sectorSize)).numBytes = h.numBytes ∧
    (ofImage (copy m 0 h.image sectorSize)).sectors = h.sectors ∧
    (ofImage (copy m 0 h.image sectorSize)).Shaped := by
  have hfits := hs.fits
  have hmax := hs.numBytes_le
  have hnonneg := hs.nonneg
  have hcov := hs.covered
  simp only [numDirect, maxFileSize, sectorSize] at hfits hmax hcov
  have hbytes := numBytes_ofImage h m (by omega) (by omega)
  have hsec : (ofImage (copy m 0 h.image sectorSize)).numSectors = h.numSectors := by
    have := wordAt_image h m (k := 1) (by decide)
    simp only [Nat.mul_one] at this
    simp only [ofImage, this, words]
    exact toInt_ofInt_of_bounds (by omega) (by omega)
  refine ⟨hbytes, ?_, ⟨by omega, by rw [hbytes, hsec]; exact hs.covered, by rw [hsec]; exact hs.fits⟩⟩
  unfold sectors
  rw [hsec]
  apply List.map_congr_left
  intro i hi
  have hi' := List.mem_range.mp hi
  have hr := ints (h.dataSectors i) (mem_sectors.mpr ⟨i, by omega, rfl⟩)
  simp only [ofImage]
  rw [wordAt_image h m (k := i + 2) (by simp only [sectorSize]; omega)]
  simp only [words]
  exact toInt_ofInt_of_bounds (by omega) (by omega)

theorem ofImage_image (hs : h.Shaped) (range : ∀ x ∈ h.sectors, 0 ≤ x ∧ x < Nachos.numSectors) (m : Image) :
    (ofImage (copy m 0 h.image sectorSize)).numBytes = h.numBytes ∧
    (ofImage (copy m 0 h.image sectorSize)).sectors = h.sectors ∧
    (ofImage (copy m 0 h.image sectorSize)).Shaped := by
  refine ofImage_image_of_ints hs (fun x hx => ?_) m
  have hr := range x hx
  simp only [Nachos.numSectors, sectorsPerTrack, numTracks] at hr
  omega

end FileHeader

end Nachos
