import Nachos.Filesys.OpenFile
import Mathlib.Data.List.GetD
import Mathlib.Tactic.Ring

/-! # An open file is a byte array of fixed length

For a header whose data sectors are distinct, in range and cover `numBytes`, `byteAt` is the file's
contents. `readAt_eq` and `writeAt_eq` say what the two transfers do to it, and that nothing outside
the file's data sectors changes; a sequence of `Read` or `Write` calls is the transfer of the
concatenated chunks. -/
set_option autoImplicit false

namespace Nachos
open Buffer Execution

namespace FileHeader

/-- Distinct data sectors in range that cover the file. -/
structure WellFormed (h : FileHeader) : Prop where
  nonneg : 0 ≤ h.numBytes
  covered : h.numBytes ≤ h.numSectors * sectorSize
  fits : h.numSectors ≤ numDirect
  inRange : ∀ i : ℕ, i < h.numSectors → 0 ≤ h.dataSectors i ∧ h.dataSectors i < Nachos.numSectors
  distinct : ∀ i j : ℕ, i < h.numSectors → j < h.numSectors → h.dataSectors i = h.dataSectors j → i = j

/-- Byte `q` of the file. -/
def byteAt (h : FileHeader) (disk : Disk) (q : ℕ) : UInt8 :=
  disk (h.dataSectors (q / sectorSize)).toNat (q % sectorSize)

variable {h : FileHeader}

theorem byteToSector_mul (h : FileHeader) {i : ℕ} (hi : i < numDirect) :
    h.byteToSector ((i : Int) * sectorSize) = .ok (h.dataSectors i) := by
  have hd : ((i : Int) * sectorSize).tdiv sectorSize = i := Int.mul_tdiv_cancel _ (by decide)
  unfold byteToSector
  rw [hd, if_pos ⟨by omega, by exact_mod_cast hi⟩, Int.toNat_natCast]

theorem WellFormed.lt_numDirect (wf : h.WellFormed) {i : ℕ} (hi : i < h.numSectors) : i < numDirect := by
  have := wf.fits
  omega

theorem WellFormed.readSector_eq (wf : h.WellFormed) (disk : Disk) {i : ℕ} (hi : i < h.numSectors) :
    readSector disk (h.dataSectors i) = .ok (disk (h.dataSectors i).toNat) := by
  unfold readSector
  rw [if_pos (wf.inRange i hi)]

theorem WellFormed.writeSector_eq (wf : h.WellFormed) (disk : Disk) (data : Image) {i : ℕ} (hi : i < h.numSectors) :
    writeSector disk (h.dataSectors i) data = .ok (Function.update disk (h.dataSectors i).toNat
      (copy (disk (h.dataSectors i).toNat) 0 data sectorSize)) := by
  unfold writeSector
  rw [if_pos (wf.inRange i hi)]

theorem WellFormed.toNat_inj (wf : h.WellFormed) {i j : ℕ} (hi : i < h.numSectors)
    (hj : j < h.numSectors) (he : (h.dataSectors i).toNat = (h.dataSectors j).toNat) : i = j := by
  have h1 := (wf.inRange i hi).1
  have h2 := (wf.inRange j hj).1
  exact wf.distinct i j hi hj (by omega)

/-- The sector that holds byte `q`. -/
theorem WellFormed.sector_lt (wf : h.WellFormed) {q : ℕ} (hq : q < h.numBytes) :
    ((q / sectorSize : ℕ) : Int) < h.numSectors := by
  have := wf.covered
  simp only [sectorSize] at this ⊢
  omega

end FileHeader

open FileHeader

variable {h : FileHeader}

/-! ## The two sector loops -/

theorem readSectors_eq (wf : h.WellFormed) (disk : Disk) (f n : ℕ) (buf : Image)
    (hn : ((f + n : ℕ) : Int) ≤ h.numSectors) :
    readSectors disk h f n buf =
      .ok (copy buf 0 (shift (h.byteAt disk) (f * sectorSize)) (n * sectorSize)) := by
  induction n with
  | zero => simp [readSectors]
  | succ n ih =>
    have hi : ((f + n : ℕ) : Int) < h.numSectors := by omega
    have hcast : (f : Int) + (n : Int) = ((f + n : ℕ) : Int) := by omega
    have ih' := ih (by omega)
    simp only [readSectors, hcast, ih', byteToSector_mul h (wf.lt_numDirect hi),
      wf.readSector_eq disk hi, ok_bind, pure_eq_ok]
    congr 1
    funext o
    -- the new sector lies behind the `n` sectors already there
    by_cases h1 : o < n * sectorSize
    · rw [copy_outside _ _ (by omega), copy_from_zero _ _ h1, copy_from_zero _ _ (by
        simp only [sectorSize] at *; omega)]
    · by_cases h2 : o < (n + 1) * sectorSize
      · rw [copy_inside _ _ (by omega) (by simp only [sectorSize] at *; omega), copy_from_zero _ _ h2]
        simp only [shift_apply, byteAt, sectorSize] at *
        have e1 : (f * 128 + o) / 128 = f + n := by omega
        have e2 : (f * 128 + o) % 128 = o - n * 128 := by omega
        rw [e1, e2]
      · simp only [sectorSize] at *
        rw [copy_outside _ _ (by omega), copy_outside _ _ (by omega), copy_outside _ _ (by omega)]

theorem writeSectors_spec (wf : h.WellFormed) (disk : Disk) (f n : ℕ) (buf : Image)
    (hn : ((f + n : ℕ) : Int) ≤ h.numSectors) :
    ∃ disk', writeSectors h f buf n disk = .ok disk' ∧
      (∀ i < n, ∀ o < sectorSize, disk' (h.dataSectors (f + i)).toNat o = buf (i * sectorSize + o)) ∧
      ∀ t, (∀ i < n, t ≠ (h.dataSectors (f + i)).toNat) → disk' t = disk t := by
  induction n with
  | zero => exact ⟨disk, rfl, by omega, fun _ _ => rfl⟩
  | succ n ih =>
    obtain ⟨d, hd, hin, hout⟩ := ih (by omega)
    have hi : ((f + n : ℕ) : Int) < h.numSectors := by omega
    have hcast : (f : Int) + (n : Int) = ((f + n : ℕ) : Int) := by omega
    refine ⟨Function.update d (h.dataSectors (f + n)).toNat (copy (d (h.dataSectors (f + n)).toNat) 0
      (shift buf (n * sectorSize)) sectorSize), ?_, ?_, ?_⟩
    · simp only [writeSectors, hcast, hd, byteToSector_mul h (wf.lt_numDirect hi),
        wf.writeSector_eq d _ hi, ok_bind]
    · intro i hin' o ho
      by_cases he : i = n
      · subst he
        rw [Function.update_self, copy_from_zero _ _ ho, shift_apply]
      · have hne : (h.dataSectors (f + i)).toNat ≠ (h.dataSectors (f + n)).toNat := by
          intro heq
          have := wf.toNat_inj (by omega) hi heq
          omega
        rw [Function.update_of_ne hne]
        exact hin i (by omega) o ho
    · intro t ht
      rw [Function.update_of_ne (ht n (by omega))]
      exact hout t (fun i hi' => ht i (by omega))

/-! ## Transfers inside the file -/

theorem divRoundDown_natCast (p : ℕ) : divRoundDown (p : Int) sectorSize = ((p / 128 : ℕ) : Int) := by
  rw [divRoundDown_of_nonneg (by omega)]
  norm_cast

theorem divRoundDown_last {p n : ℕ} (hn : 0 < n) :
    divRoundDown ((p : Int) + n - 1) sectorSize = (((p + n - 1) / 128 : ℕ) : Int) := by
  rw [← divRoundDown_natCast]
  congr 1
  omega

theorem readSpan_spec (wf : h.WellFormed) (disk : Disk) (junk : Image) (n p : ℕ) (hn : 0 < n)
    (hp : ((p + n : ℕ) : Int) ≤ h.numBytes) :
    ∃ bytes, readSpan disk h junk n p = .ok bytes ∧ ∀ o < n, bytes o = h.byteAt disk (p + o) := by
  have hcov := wf.covered
  simp only [sectorSize] at hcov
  have hcount : (1 + (((p + n - 1) / 128 : ℕ) : Int) - ((p / 128 : ℕ) : Int)).toNat =
      (p + n - 1) / 128 - p / 128 + 1 := by omega
  have hread := readSectors_eq wf disk (p / 128) ((p + n - 1) / 128 - p / 128 + 1) junk (by omega)
  have hpos : ((p : Int) - ((p / 128 : ℕ) : Int) * sectorSize).toNat = p % 128 := by
    simp only [sectorSize]; omega
  refine ⟨shift (copy junk 0 (shift (h.byteAt disk) (p / 128 * sectorSize))
    (((p + n - 1) / 128 - p / 128 + 1) * sectorSize)) (p % 128), ?_, ?_⟩
  · unfold readSpan
    simp only [divRoundDown_natCast, divRoundDown_last hn, hcount, hread, ok_bind]
    unfold bcopyOut
    rw [if_pos (by simp only [sectorSize]; omega), hpos]
  · intro o ho
    rw [shift_apply, copy_from_zero _ _ (by simp only [sectorSize]; omega), shift_apply]
    congr 1
    simp only [sectorSize]
    omega

/-- What a transfer of `numBytes` at `position` amounts to. -/
def transferred (h : FileHeader) (numBytes position : Int) : Int :=
  max 0 (min numBytes (h.numBytes - position))

theorem transferred_whole {h : FileHeader} {n : Int} (h0 : 0 ≤ n) (hn : n ≤ h.numBytes) : transferred h n 0 = n := by
  unfold transferred
  omega

theorem transferred_none {h : FileHeader} {n p : Int} (hc : n ≤ 0 ∨ p ≥ h.fileLength) : transferred h n p = 0 := by
  unfold transferred fileLength at *
  omega

theorem transferred_inside {h : FileHeader} {n p : Int} (hc : ¬ (n ≤ 0 ∨ p ≥ h.fileLength)) :
    transferred h n p = clip h.fileLength n p ∧ 0 < transferred h n p ∧ p + transferred h n p ≤ h.numBytes := by
  unfold transferred clip fileLength at *
  split <;> omega

theorem readAt_eq (wf : h.WellFormed) (disk : Disk) (junk : Image) (n p : Int) (hp : 0 ≤ p) (ho : p + n ≤ intMax) :
    ∃ bytes, readAt disk h junk n p = .ok (transferred h n p, bytes) ∧
      ∀ o : ℕ, o < transferred h n p → bytes o = h.byteAt disk (p.toNat + o) := by
  by_cases hc : n ≤ 0 ∨ p ≥ h.fileLength
  · have ht := transferred_none hc
    refine ⟨junk, ?_, ?_⟩
    · unfold readAt
      rw [if_pos hc, ht]
    · intro o ho'
      omega
  · obtain ⟨ht, hk⟩ := transferred_inside hc
    obtain ⟨bytes, hb, hv⟩ := readSpan_spec wf disk junk (transferred h n p).toNat p.toNat
      (by omega) (by omega)
    rw [Int.toNat_of_nonneg (by omega), Int.toNat_of_nonneg hp] at hb
    refine ⟨bytes, ?_, fun o ho' => hv o (by omega)⟩
    unfold readAt
    rw [if_neg hc, if_neg (by omega), ← ht, hb]
    rfl

theorem readSectorInto_eq (wf : h.WellFormed) (disk : Disk) (junk buf : Image) (pos s : ℕ)
    (hs : ((s * sectorSize : ℕ) : Int) < h.numBytes) :
    ∃ buf', readSectorInto disk h junk buf pos s = .ok buf' ∧
      (∀ o < sectorSize, ((s * sectorSize + o : ℕ) : Int) < h.numBytes →
        buf' (pos + o) = h.byteAt disk (s * sectorSize + o)) ∧
      ∀ o, o < pos ∨ pos + sectorSize ≤ o → buf' o = buf o := by
  have hfit := wf.fits
  have hcov := wf.covered
  simp only [sectorSize, numDirect] at hs hfit hcov
  obtain ⟨bytes, hb, hv⟩ := readAt_eq wf disk junk sectorSize ((s : Int) * sectorSize)
    (by simp only [sectorSize]; omega) (by simp only [sectorSize, intMax]; omega)
  refine ⟨copy buf pos bytes (transferred h sectorSize ((s : Int) * sectorSize)).toNat, ?_, ?_, ?_⟩
  · unfold readSectorInto
    rw [hb]
    rfl
  · intro o ho hin
    have ht : (o : Int) < transferred h sectorSize ((s : Int) * sectorSize) := by
      unfold transferred
      simp only [sectorSize] at *
      omega
    rw [copy_inside _ _ (by omega) (by omega), Nat.add_sub_cancel_left, hv o ht]
    congr 1
  · intro o ho
    have ht : transferred h sectorSize ((s : Int) * sectorSize) ≤ sectorSize := by
      unfold transferred
      simp only [sectorSize]
      omega
    exact copy_outside _ _ (by omega)

theorem readFirst_spec (wf : h.WellFormed) (disk : Disk) (junk : Image) (p : ℕ) (hp : (p : Int) < h.numBytes) :
    ∃ buf, readFirst disk h junk p ((p / 128 : ℕ) : Int) = .ok buf ∧
      (p ≠ p / 128 * 128 → ∀ o < sectorSize, ((p / 128 * 128 + o : ℕ) : Int) < h.numBytes →
        buf o = h.byteAt disk (p / 128 * 128 + o)) := by
  unfold readFirst
  by_cases ha : p = p / 128 * 128
  · refine ⟨junk, ?_, fun hne => absurd ha hne⟩
    rw [if_neg]
    simp only [sectorSize]
    omega
  · obtain ⟨buf, hbuf, hb, -⟩ := readSectorInto_eq wf disk junk junk 0 (p / 128)
      (by simp only [sectorSize]; omega)
    refine ⟨buf, ?_, fun _ o ho hin => ?_⟩
    · rw [if_pos (by simp only [sectorSize]; omega)]
      exact hbuf
    · have hv := hb o ho (by simpa only [sectorSize] using hin)
      rwa [Nat.zero_add] at hv

/-- Once both partial sectors are in, the buffer holds every byte of the file that the covered
sectors hold and the transfer does not overwrite: there are bytes before `p` only if the first
sector is not aligned, and bytes from `p + n` on only if the last one is not. -/
theorem readLast_spec (wf : h.WellFormed) (disk : Disk) (junk buf : Image) (n p : ℕ) (hn : 0 < n)
    (hp : ((p + n : ℕ) : Int) ≤ h.numBytes)
    (hb : p ≠ p / 128 * 128 → ∀ o < sectorSize, ((p / 128 * 128 + o : ℕ) : Int) < h.numBytes →
      buf o = h.byteAt disk (p / 128 * 128 + o)) :
    ∃ buf', readLast disk h junk buf n p ((p / 128 : ℕ) : Int) (((p + n - 1) / 128 : ℕ) : Int) = .ok buf' ∧
      ∀ q, p / 128 * 128 ≤ q → q < ((p + n - 1) / 128 + 1) * 128 → (q : Int) < h.numBytes →
        (q < p ∨ p + n ≤ q) → buf' (q - p / 128 * 128) = h.byteAt disk q := by
  have hpos : ((((p + n - 1) / 128 : ℕ) : Int) - ((p / 128 : ℕ) : Int)) * sectorSize =
      ((((p + n - 1) / 128 - p / 128) * 128 : ℕ) : Int) := by
    simp only [sectorSize]
    omega
  have hfirst : ∀ q, p / 128 * 128 ≤ q → q < (p / 128 + 1) * 128 → (q : Int) < h.numBytes →
      p ≠ p / 128 * 128 → buf (q - p / 128 * 128) = h.byteAt disk q := by
    intro q hq hq' hin hne
    have hv := hb hne (q - p / 128 * 128) (by simp only [sectorSize]; omega) (by omega)
    rwa [show p / 128 * 128 + (q - p / 128 * 128) = q by omega] at hv
  obtain ⟨last, hlast, hl, hkeep⟩ := readSectorInto_eq wf disk junk buf
    (((p + n - 1) / 128 - p / 128) * 128) ((p + n - 1) / 128) (by simp only [sectorSize]; omega)
  unfold readLast
  by_cases hc : ¬ ((p : Int) + n = ((((p + n - 1) / 128 : ℕ) : Int) + 1) * sectorSize) ∧
      (((p / 128 : ℕ) : Int) ≠ (((p + n - 1) / 128 : ℕ) : Int) ∨
        (p : Int) = ((p / 128 : ℕ) : Int) * sectorSize)
  · rw [if_pos hc, hpos]
    refine ⟨last, hlast, ?_⟩
    intro q hq hq' hin hside
    simp only [sectorSize] at hl hkeep
    by_cases hsec : q / 128 = (p + n - 1) / 128
    · have hv := hl (q - (p + n - 1) / 128 * 128) (by omega) (by omega)
      rwa [show ((p + n - 1) / 128 - p / 128) * 128 + (q - (p + n - 1) / 128 * 128) =
          q - p / 128 * 128 by omega,
        show (p + n - 1) / 128 * 128 + (q - (p + n - 1) / 128 * 128) = q by omega] at hv
    · rw [hkeep (q - p / 128 * 128) (by omega)]
      exact hfirst q hq (by omega) hin (by omega)
  · rw [if_neg hc]
    refine ⟨buf, rfl, ?_⟩
    intro q hq hq' hin hside
    simp only [sectorSize] at hc
    exact hfirst q hq (by omega) hin (by omega)

theorem writeSpan_spec (wf : h.WellFormed) (disk : Disk) (junk src : Image) (n p : ℕ) (hn : 0 < n)
    (hp : ((p + n : ℕ) : Int) ≤ h.numBytes) :
    ∃ disk', writeSpan disk h junk src n p = .ok disk' ∧
      (∀ q : ℕ, (q : Int) < h.numBytes →
        h.byteAt disk' q = if p ≤ q ∧ q < p + n then src (q - p) else h.byteAt disk q) ∧
      ∀ t, (∀ i : ℕ, i < h.numSectors → t ≠ (h.dataSectors i).toNat) → disk' t = disk t := by
  have hcov := wf.covered
  simp only [sectorSize] at hcov
  obtain ⟨first, hfirst, hf⟩ := readFirst_spec wf disk junk p (by omega)
  obtain ⟨buf, hbuf, hb⟩ := readLast_spec wf disk junk first n p hn hp hf
  have hcount : (1 + (((p + n - 1) / 128 : ℕ) : Int) - ((p / 128 : ℕ) : Int)).toNat =
      (p + n - 1) / 128 - p / 128 + 1 := by omega
  have hpos : ((p : Int) - ((p / 128 : ℕ) : Int) * sectorSize).toNat = p % 128 := by
    simp only [sectorSize]; omega
  obtain ⟨disk', hw, hin, hout⟩ := writeSectors_spec wf disk (p / 128)
    ((p + n - 1) / 128 - p / 128 + 1) (copy buf (p % 128) src n) (by omega)
  refine ⟨disk', ?_, ?_, ?_⟩
  · unfold writeSpan
    simp only [divRoundDown_natCast, divRoundDown_last hn, hfirst, hbuf, hcount, ok_bind]
    unfold bcopyIn
    rw [if_pos (by simp only [sectorSize]; omega), hpos, Int.toNat_natCast]
    exact hw
  · intro q hq
    have hsec := wf.sector_lt hq
    simp only [sectorSize] at hsec hin
    by_cases hcovd : p / 128 ≤ q / 128 ∧ q / 128 ≤ (p + n - 1) / 128
    · have hv := hin (q / 128 - p / 128) (by omega) (q % 128) (by omega)
      have e1 : p / 128 + (q / 128 - p / 128) = q / 128 := by omega
      have e2 : (q / 128 - p / 128) * 128 + q % 128 = q - p / 128 * 128 := by omega
      rw [e1, e2] at hv
      unfold byteAt at hb ⊢
      simp only [sectorSize] at hb ⊢
      rw [hv]
      by_cases hr : p ≤ q ∧ q < p + n
      · rw [if_pos hr, copy_inside _ _ (by omega) (by omega)]
        congr 1
        omega
      · rw [if_neg hr, copy_outside _ _ (by omega)]
        exact hb q (by omega) (by omega) hq (by omega)
    · rw [if_neg (by omega)]
      unfold byteAt
      simp only [sectorSize]
      rw [hout]
      intro i hi heq
      have := wf.toNat_inj hsec (by omega) heq
      omega
  · intro t ht
    exact hout t (fun i hi => ht _ (by omega))

theorem writeAt_eq (wf : h.WellFormed) (disk : Disk) (junk src : Image) (n p : Int) (hp : 0 ≤ p)
    (ho : p + n ≤ intMax) :
    ∃ disk', writeAt disk h junk src n p = .ok (transferred h n p, disk') ∧
      (∀ q : ℕ, (q : Int) < h.numBytes →
        h.byteAt disk' q = if p ≤ q ∧ q < p + transferred h n p then src (q - p.toNat)
          else h.byteAt disk q) ∧
      ∀ t, (∀ i : ℕ, i < h.numSectors → t ≠ (h.dataSectors i).toNat) → disk' t = disk t := by
  by_cases hc : n ≤ 0 ∨ p ≥ h.fileLength
  · have ht := transferred_none hc
    refine ⟨disk, ?_, ?_, fun _ _ => rfl⟩
    · unfold writeAt
      rw [if_pos hc, ht]
    · intro q _
      rw [if_neg (by omega)]
  · obtain ⟨ht, hk⟩ := transferred_inside hc
    obtain ⟨disk', hw, hin, hout⟩ := writeSpan_spec wf disk junk src (transferred h n p).toNat p.toNat
      (by omega) (by omega)
    rw [Int.toNat_of_nonneg (by omega), Int.toNat_of_nonneg hp] at hw
    refine ⟨disk', ?_, ?_, hout⟩
    · unfold writeAt
      rw [if_neg hc, if_neg (by omega), ← ht, hw]
      rfl
    · intro q hq
      rw [hin q hq]
      by_cases hr : p ≤ q ∧ q < p + transferred h n p
      · rw [if_pos hr, if_pos (by omega)]
      · rw [if_neg hr, if_neg (by omega)]

/-! ## Calls that return -/

theorem writeSectors_first_nonneg {first : Int} {buf : Image} {n : ℕ} {disk disk' : Disk}
    (hrun : writeSectors h first buf n disk = .ok disk') (hn : 0 < n) : 0 ≤ first := by
  induction n generalizing disk' with
  | zero => omega
  | succ n ih =>
    simp only [writeSectors, bind_eq_ok] at hrun
    obtain ⟨d, hd, sector, hsector, -⟩ := hrun
    cases n with
    | zero =>
      have hdiv : ((first + (0 : ℕ)) * sectorSize).tdiv sectorSize = first := by
        rw [Int.mul_tdiv_cancel _ (by decide)]
        omega
      unfold byteToSector at hsector
      rw [hdiv] at hsector
      by_contra hneg
      rw [if_neg (by omega)] at hsector
      cases hsector
    | succ n => exact ih hd (by omega)

theorem divRoundDown_of_neg {x : Int} (hx : x < 0) : divRoundDown x sectorSize = - ((- x) / 128) := by
  have hneg : x = - (- x) := by omega
  unfold divRoundDown
  rw [hneg, Int.neg_tdiv, Int.tdiv_eq_ediv_of_nonneg (by omega), Int.neg_neg]
  rfl

/-- The sector before the file in which a transfer starts is not behind that in which it ends. -/
theorem divRoundDown_le_last {n p : Int} (hn : 0 < n) (hp : p < 0) :
    divRoundDown p sectorSize ≤ divRoundDown (p + n - 1) sectorSize := by
  rw [divRoundDown_of_neg hp]
  by_cases h0 : p + n - 1 < 0
  · rw [divRoundDown_of_neg h0]
    omega
  · rw [divRoundDown_of_nonneg (by omega)]
    simp only [sectorSize]
    omega

/-- A position before the file never gets through `WriteAt`: the copy into the buffer or the first
sector number would be out of bounds. -/
theorem writeSpan_position_nonneg {disk disk' : Disk} {junk src : Image} {n p : Int} (hn : 0 < n)
    (hrun : writeSpan disk h junk src n p = .ok disk') : 0 ≤ p := by
  by_contra hp
  simp only [writeSpan, bind_eq_ok] at hrun
  obtain ⟨_, -, _, -, _, hcopy, hwrite⟩ := hrun
  have hfirst := divRoundDown_of_neg (x := p) (by omega)
  have hlast := divRoundDown_le_last hn (show p < 0 by omega)
  have hin : 0 ≤ p - divRoundDown p sectorSize * sectorSize := by
    unfold bcopyIn at hcopy
    split at hcopy
    · next hpos => exact hpos.1
    · cases hcopy
  have hfirst0 := writeSectors_first_nonneg hwrite (by omega)
  simp only [sectorSize] at *
  omega

/-- Whatever the arguments, a `WriteAt` that returns has changed no sector outside the file. -/
theorem writeAt_frame (wf : h.WellFormed) {disk disk' : Disk} {junk src : Image} {n p k : Int}
    (hrun : writeAt disk h junk src n p = .ok (k, disk')) {t : ℕ}
    (ht : ∀ i : ℕ, i < h.numSectors → t ≠ (h.dataSectors i).toNat) : disk' t = disk t := by
  by_cases hskip : n ≤ 0 ∨ p ≥ h.fileLength
  · unfold writeAt at hrun
    rw [if_pos hskip] at hrun
    cases hrun
    rfl
  · by_cases hover : p + n > intMax
    · unfold writeAt at hrun
      rw [if_neg hskip, if_pos hover] at hrun
      cases hrun
    · have hp : 0 ≤ p := by
        unfold writeAt at hrun
        rw [if_neg hskip, if_neg hover] at hrun
        simp only [bind_eq_ok] at hrun
        obtain ⟨d, hd, -⟩ := hrun
        refine writeSpan_position_nonneg ?_ hd
        unfold clip
        split <;> omega
      obtain ⟨d, hd, -, hout⟩ := writeAt_eq wf disk junk src n p hp (by omega)
      rw [hd] at hrun
      cases hrun
      exact hout t ht

/-! ## Sequences of calls -/

/-- The calls of sizes `ns` from position `p` on never compute a position beyond `intMax`. -/
def NoOverflow (h : FileHeader) : Int → List Int → Prop
  | _, [] => True
  | p, n :: ns => p + n ≤ intMax ∧ NoOverflow h (p + transferred h n p) ns

/-- The file as a list of `numBytes` bytes. -/
def FileHeader.contents (h : FileHeader) (disk : Disk) : List UInt8 :=
  (List.range h.numBytes.toNat).map (h.byteAt disk)

theorem contents_length (h : FileHeader) (disk : Disk) : (h.contents disk).length = h.numBytes.toNat := by
  simp [contents]

theorem contents_getElem? (h : FileHeader) (disk : Disk) (q : ℕ) :
    (h.contents disk)[q]? = if q < h.numBytes.toNat then some (h.byteAt disk q) else none := by
  unfold contents
  rw [List.getElem?_map]
  split
  · next hq => rw [List.getElem?_range hq]; rfl
  · next hq => rw [List.getElem?_eq_none (by simpa using hq)]; rfl

theorem transferred_nat (h : FileHeader) (n : Int) {p : ℕ} (hp : (p : Int) ≤ h.numBytes) :
    ∃ k : ℕ, transferred h n p = k ∧ k ≤ n.toNat ∧ ((p + k : ℕ) : Int) ≤ h.numBytes ∧
      (k = n.toNat ∨ ((p + k : ℕ) : Int) = h.numBytes) := by
  refine ⟨(transferred h n p).toNat, ?_⟩
  unfold transferred
  omega

/-- After the chunks are written from position `p` on, the file holds them there, cut off at its
length. -/
theorem writeAll_spec (wf : h.WellFormed) (junk : ℕ → Image) (chunks : List (List UInt8)) (disk : Disk) (p : ℕ)
    (hp : (p : Int) ≤ h.numBytes) (ho : NoOverflow h p (chunks.map fun c => (c.length : Int))) :
    ∃ counts disk' p', OpenFile.writeAll junk ⟨h, p⟩ disk chunks = .ok (counts, disk', ⟨h, p'⟩) ∧
      p' = (p : Int) + counts.sum ∧ p' = min ((p + chunks.flatten.length : ℕ) : Int) h.numBytes ∧
      (∀ q : ℕ, (q : Int) < h.numBytes → h.byteAt disk' q =
        if p ≤ q ∧ q < p + chunks.flatten.length then chunks.flatten.getD (q - p) 0
        else h.byteAt disk q) ∧
      ∀ t, (∀ i : ℕ, i < h.numSectors → t ≠ (h.dataSectors i).toNat) → disk' t = disk t := by
  induction chunks generalizing disk p with
  | nil =>
    refine ⟨[], disk, p, rfl, by simp, by simp; omega, ?_, fun _ _ => rfl⟩
    intro q _
    rw [if_neg (by simp)]
  | cons c cs ih =>
    obtain ⟨hc, hrest⟩ := ho
    obtain ⟨d, hd, hin, hout⟩ := writeAt_eq wf disk (junk cs.length) (fun o => c.getD o 0) c.length p
      (by omega) hc
    obtain ⟨k, hk, hle, hfits, hfull⟩ := transferred_nat h c.length hp
    rw [Int.toNat_natCast] at hle hfull
    rw [hk] at hd hin hrest
    obtain ⟨counts, d', p', hd', hsum, hp', hin', hout'⟩ := ih d (p + k) hfits hrest
    have hflat : (c :: cs).flatten.length = c.length + cs.flatten.length := by simp
    refine ⟨k :: counts, d', p', ?_, ?_, ?_, ?_, ?_⟩
    · simp only [OpenFile.writeAll, OpenFile.write, hd, ok_bind, pure_eq_ok]
      rw [← Int.natCast_add, hd']
      rfl
    · rw [hsum, List.sum_cons, Int.natCast_add, Int.add_assoc]
    · rw [hp', hflat]
      omega
    · intro q hq
      rw [hin' q hq, hin q hq, hflat, List.flatten_cons]
      by_cases h1 : p ≤ q ∧ q < p + (c.length + cs.flatten.length)
      · rw [if_pos h1]
        by_cases h2 : q < p + c.length
        · rw [if_neg (by omega), if_pos (by omega), Int.toNat_natCast, List.getD_append _ _ _ _ (by omega)]
        · obtain rfl : k = c.length := by omega
          rw [if_pos (by omega), List.getD_append_right _ _ _ _ (by omega), Nat.sub_add_eq]
      · rw [if_neg h1, if_neg (by omega), if_neg (by omega)]
    · intro t ht
      rw [hout' t ht, hout t ht]

theorem readAt_contents (wf : h.WellFormed) (disk : Disk) (junk : Image) (n p : Int) (hp : 0 ≤ p)
    (ho : p + n ≤ intMax) :
    ∃ bytes, readAt disk h junk n p = .ok (transferred h n p, bytes) ∧
      (List.range (transferred h n p).toNat).map bytes = ((h.contents disk).drop p.toNat).take n.toNat := by
  obtain ⟨bytes, hb, hv⟩ := readAt_eq wf disk junk n p hp ho
  refine ⟨bytes, hb, ?_⟩
  have hk : (transferred h n p).toNat = min n.toNat (h.numBytes.toNat - p.toNat) := by
    have := wf.nonneg
    unfold transferred
    omega
  apply List.ext_getElem?
  intro o
  rw [hk]
  by_cases h1 : o < min n.toNat (h.numBytes.toNat - p.toNat)
  · rw [List.getElem?_map, List.getElem?_range h1, List.getElem?_take_of_lt (by omega),
      List.getElem?_drop, contents_getElem?, if_pos (by omega), Option.map_some, hv o (by omega)]
  · rw [List.getElem?_eq_none (by simp; omega), List.getElem?_eq_none]
    simp [contents_length]
    omega

/-- What the `Read` calls deliver from position `p` on is one stretch of the file. -/
theorem readAll_spec (wf : h.WellFormed) (disk : Disk) (junk : ℕ → Image) (ns : List Int) (p : ℕ)
    (hp : (p : Int) ≤ h.numBytes) (ho : NoOverflow h p ns) :
    ∃ p' : ℕ, OpenFile.readAll disk junk ⟨h, p⟩ ns =
      .ok (((h.contents disk).drop p).take (ns.map Int.toNat).sum, ⟨h, p'⟩) := by
  induction ns generalizing p with
  | nil => exact ⟨p, by simp [OpenFile.readAll]⟩
  | cons n ns ih =>
    obtain ⟨hc, hrest⟩ := ho
    obtain ⟨bytes, hb, hfirst⟩ := readAt_contents wf disk (junk ns.length) n p (by omega) hc
    rw [Int.toNat_natCast] at hfirst
    obtain ⟨k, hk, hle, hfits, hfull⟩ := transferred_nat h n hp
    rw [hk] at hb hfirst hrest
    obtain ⟨p', hp'⟩ := ih (p + k) hfits hrest
    refine ⟨p', ?_⟩
    simp only [OpenFile.readAll, OpenFile.read, hb, ok_bind, pure_eq_ok]
    rw [← Int.natCast_add, hp', hfirst, List.map_cons, List.sum_cons, List.take_add, List.drop_drop]
    rcases hfull with rfl | hend
    · rfl
    · -- the file is exhausted: both remainders are empty
      have hk : (h.contents disk).drop (p + k) = [] := List.drop_eq_nil_of_le (by rw [contents_length]; omega)
      have hn : (h.contents disk).drop (p + n.toNat) = [] := List.drop_eq_nil_of_le (by rw [contents_length]; omega)
      rw [hk, hn]
      rfl

/-- An open file is an array of `numBytes` bytes: each call transfers the part of its range below the
length and nothing else, and runs of calls from position `0` transfer the concatenated chunks. -/
theorem openFile_refines_byteArray (wf : h.WellFormed) (disk : Disk) :
    (∀ junk src n p, 0 ≤ p → p + n ≤ intMax →
      ∃ disk', writeAt disk h junk src n p = .ok (max 0 (min n (h.numBytes - p)), disk') ∧
        (∀ q : ℕ, (q : Int) < h.numBytes → h.byteAt disk' q =
          if p ≤ q ∧ (q : Int) < p + max 0 (min n (h.numBytes - p)) then src (q - p.toNat)
          else h.byteAt disk q) ∧
        ∀ t, (∀ i : ℕ, i < h.numSectors → t ≠ (h.dataSectors i).toNat) → disk' t = disk t) ∧
    (∀ junk n p, 0 ≤ p → p + n ≤ intMax →
      ∃ bytes, readAt disk h junk n p = .ok (max 0 (min n (h.numBytes - p)), bytes) ∧
        ∀ o : ℕ, (o : Int) < max 0 (min n (h.numBytes - p)) → bytes o = h.byteAt disk (p.toNat + o)) ∧
    (∀ junk chunks, NoOverflow h 0 (chunks.map fun c => (c.length : Int)) →
      ∃ counts disk' f, OpenFile.writeAll junk ⟨h, 0⟩ disk chunks = .ok (counts, disk', f) ∧
        counts.sum = min (chunks.flatten.length : Int) h.numBytes ∧
        h.contents disk' = chunks.flatten.take h.numBytes.toNat ++
          (h.contents disk).drop chunks.flatten.length ∧
        ∀ t, (∀ i : ℕ, i < h.numSectors → t ≠ (h.dataSectors i).toNat) → disk' t = disk t) ∧
    ∀ junk ns, NoOverflow h 0 ns →
      ∃ f, OpenFile.readAll disk junk ⟨h, 0⟩ ns =
        .ok ((h.contents disk).take (ns.map Int.toNat).sum, f) := by
  refine ⟨fun junk src n p hp ho => writeAt_eq wf disk junk src n p hp ho,
    fun junk n p hp ho => readAt_eq wf disk junk n p hp ho, ?_, ?_⟩
  · intro junk chunks ho
    obtain ⟨counts, disk', p', hrun, hsum, hp', hin, hout⟩ :=
      writeAll_spec wf junk chunks disk 0 wf.nonneg ho
    refine ⟨counts, disk', _, hrun, by omega, ?_, hout⟩
    apply List.ext_getElem?
    intro q
    have hlen := contents_length h disk
    rw [contents_getElem?]
    by_cases hq : q < h.numBytes.toNat
    · rw [if_pos hq, hin q (by omega)]
      by_cases hc : q < chunks.flatten.length
      · rw [if_pos (by omega), List.getElem?_append_left (by simp only [List.length_take]; omega),
          List.getElem?_take_of_lt hq, Nat.sub_zero, List.getD_eq_getElem?_getD,
          List.getElem?_eq_getElem hc, Option.getD_some]
      · rw [if_neg (by omega), List.getElem?_append_right (by simp only [List.length_take]; omega),
          List.getElem?_drop, contents_getElem?, List.length_take, if_pos (by omega)]
        congr 2
        omega
    · rw [if_neg hq, List.getElem?_eq_none]
      simp only [List.length_append, List.length_take, List.length_drop, hlen]
      omega
  · intro junk ns ho
    obtain ⟨p', hrun⟩ := readAll_spec wf disk junk ns 0 wf.nonneg ho
    exact ⟨_, hrun⟩

/-- A file of five bytes in sector `7`. -/
def fiveBytes : FileHeader where
  numBytes := 5
  numSectors := 1
  dataSectors _ := 7

theorem fiveBytes_wellFormed : fiveBytes.WellFormed where
  nonneg := by decide
  covered := by decide
  fits := by decide
  inRange i hi := by simp [fiveBytes]
  distinct i j hi hj _ := by simp only [fiveBytes] at hi hj; omega

/-- Three bytes written from position `3` on: two fit. -/
theorem openFile_refines_byteArray_fiveBytes :
    fiveBytes.WellFormed ∧ ∃ disk', writeAt (fun _ _ => 0) fiveBytes (fun _ => 0) (fun _ => 9) 3 3 =
      .ok (2, disk') ∧ fiveBytes.byteAt disk' 4 = 9 := by
  refine ⟨fiveBytes_wellFormed, ?_⟩
  obtain ⟨disk', hrun, hin, _⟩ := (openFile_refines_byteArray fiveBytes_wellFormed (fun _ _ => 0)).1
    (fun _ => 0) (fun _ => 9) 3 3 (by decide) (by decide)
  exact ⟨disk', hrun, hin 4 (by decide)⟩

end Nachos
