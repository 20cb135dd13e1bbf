import Nachos.Filesys.OpenFileMeaning

/-! # The range checks of `OpenFile::ReadAt` and `OpenFile::WriteAt`

Past its checks a transfer of `n` bytes at `p` comes back exactly if `p` is not negative and the header lists all sectors
from the first to the last one. The checks let a negative position through, and cut `n` off only if the sum `p + n` can
be computed. -/
set_option autoImplicit false

namespace Nachos
open Buffer Execution FileHeader

variable {h h' : FileHeader} {disk : Disk} {junk src : Image} {n p : Int}

/-! ## Calls that return -/

namespace FileHeader

/-- Entry `i` is in the table and names a sector of the disk. -/
def Lists (h : FileHeader) (i : Int) : Prop :=
  0 ≤ i ∧ i < numDirect ∧ 0 ≤ h.dataSectors i.toNat ∧ h.dataSectors i.toNat < Nachos.numSectors

/-- The header lists all sectors of the `n` bytes at `p`. -/
structure Covers (h : FileHeader) (n p : Int) : Prop where
  nonneg : 0 ≤ p
  lists : ∀ i : Int, p / 128 ≤ i → i ≤ (p + n - 1) / 128 → h.Lists i

theorem byteToSector_bind_returns {α : Type} (i : Int) {body : Int → Call α}
    (hbody : ∀ s, Returns (body s) ↔ 0 ≤ s ∧ s < Nachos.numSectors) :
    Returns (h.byteToSector (i * sectorSize) >>= body) ↔ h.Lists i := by
  have hdiv : (i * sectorSize).tdiv sectorSize = i := Int.mul_tdiv_cancel _ (by decide)
  unfold byteToSector Lists
  rw [hdiv]
  by_cases hi : 0 ≤ i ∧ i < numDirect
  · rw [if_pos hi, ok_bind, hbody]
    exact ⟨fun hs => ⟨hi.1, hi.2, hs⟩, fun hs => hs.2.2⟩
  · rw [if_neg hi]
    exact iff_of_false (not_returns_error _) fun hs => hi ⟨hs.1, hs.2.1⟩

end FileHeader

theorem readSectors_returns (disk : Disk) (h : FileHeader) (first : Int) (n : ℕ) (buf : Image) :
    Returns (readSectors disk h first n buf) ↔ ∀ i < n, h.Lists (first + i) := by
  induction n with
  | zero => exact iff_of_true ⟨buf, rfl⟩ fun i hi => absurd hi (Nat.not_lt_zero i)
  | succ n ih =>
    rw [Nat.forall_lt_succ_right]
    refine returns_bind_iff ih fun b => byteToSector_bind_returns _ fun s => ?_
    unfold readSector
    split
    · exact iff_of_true ⟨_, rfl⟩ ‹_›
    · exact iff_of_false (not_returns_error _) ‹_›

theorem writeSectors_returns (h : FileHeader) (first : Int) (buf : Image) (n : ℕ) (disk : Disk) :
    Returns (writeSectors h first buf n disk) ↔ ∀ i < n, h.Lists (first + i) := by
  induction n with
  | zero => exact iff_of_true ⟨disk, rfl⟩ fun i hi => absurd hi (Nat.not_lt_zero i)
  | succ n ih =>
    rw [Nat.forall_lt_succ_right]
    refine returns_bind_iff ih fun d => byteToSector_bind_returns _ fun s => ?_
    unfold writeSector
    split
    · exact iff_of_true ⟨_, rfl⟩ ‹_›
    · exact iff_of_false (not_returns_error _) ‹_›

/-- What the sector loop and the copy ask for, in terms of the sectors of the file. -/
theorem covers_iff (hn : 0 < n) :
    h.Covers n p ↔
      (∀ i < (1 + divRoundDown (p + n - 1) sectorSize - divRoundDown p sectorSize).toNat,
        h.Lists (divRoundDown p sectorSize + i)) ∧
      0 ≤ p - divRoundDown p sectorSize * sectorSize ∧
      p - divRoundDown p sectorSize * sectorSize + n ≤
        (1 + divRoundDown (p + n - 1) sectorSize - divRoundDown p sectorSize) * sectorSize := by
  by_cases hp : 0 ≤ p
  · rw [divRoundDown_of_nonneg hp, divRoundDown_of_nonneg (by omega)]
    simp only [sectorSize]
    constructor
    · intro hcovers
      exact ⟨fun i hi => hcovers.lists _ (by omega) (by omega), by omega, by omega⟩
    · rintro ⟨hlists, -⟩
      refine ⟨hp, fun i hfirst hlast => ?_⟩
      have hi := hlists (i - p / 128).toNat (by omega)
      rwa [show p / ((128 : ℕ) : Int) + ((i - p / 128).toNat : Int) = i by omega] at hi
  · have hfirst := divRoundDown_of_neg (x := p) (by omega)
    have hlast := divRoundDown_le_last hn (show p < 0 by omega)
    refine iff_of_false (fun hcovers => hp hcovers.nonneg) ?_
    rintro ⟨hlists, hpos, -⟩
    have hzero := (hlists 0 (by omega)).1
    simp only [sectorSize] at *
    omega

theorem readSpan_returns (disk : Disk) (h : FileHeader) (junk : Image) (hn : 0 < n) :
    Returns (readSpan disk h junk n p) ↔ h.Covers n p := by
  rw [covers_iff hn]
  refine returns_bind_iff (readSectors_returns ..) fun buf => ?_
  unfold bcopyOut
  split
  · exact iff_of_true (returns_ok _) ‹_›
  · exact iff_of_false (not_returns_error _) ‹_›

/-- `ReadAt` on a request that it does not refuse. -/
theorem readAt_returns (disk : Disk) (h : FileHeader) (junk : Image) (hn : 0 < n) (hp : p < h.numBytes) :
    Returns (readAt disk h junk n p) ↔ p + n ≤ intMax ∧ h.Covers (clip h.fileLength n p) p := by
  have hclip : 0 < clip h.fileLength n p := by
    unfold clip fileLength
    split <;> omega
  unfold readAt
  rw [if_neg (by unfold fileLength; omega)]
  split
  · exact iff_of_false (not_returns_error _) (by omega)
  · have hspan := returns_bind_iff (Q := True) (readSpan_returns (p := p) disk h junk hclip) fun x =>
      iff_of_true (returns_pure (clip h.fileLength n p, x)) trivial
    exact hspan.trans ⟨fun hc => ⟨by omega, hc.1⟩, fun hc => ⟨hc.2, trivial⟩⟩

theorem readSectorInto_returns (disk : Disk) (junk buf : Image) (pos : Int) {s : Int} (hs : h.Lists s)
    (hlt : s * 128 < h.numBytes) : Returns (readSectorInto disk h junk buf pos s) := by
  have hclip : clip h.fileLength sectorSize (s * sectorSize) ≤ 128 := by
    unfold clip fileLength
    simp only [sectorSize]
    split <;> omega
  obtain ⟨h0, hdirect, -⟩ := id hs
  simp only [numDirect, sectorSize] at hdirect
  have hread : Returns (readAt disk h junk sectorSize (s * sectorSize)) := by
    rw [readAt_returns disk h junk (by decide) (by simp only [sectorSize]; omega)]
    refine ⟨by simp only [sectorSize, intMax]; omega, ⟨by simp only [sectorSize]; omega, fun i hfirst hlast => ?_⟩⟩
    have hi : i = s := by
      simp only [sectorSize] at hclip hfirst hlast
      omega
    rwa [hi]
  unfold readSectorInto
  rw [returns_bind]
  obtain ⟨r, hr⟩ := hread
  exact ⟨r, hr, _, rfl⟩

theorem writeSpan_returns (disk : Disk) (junk src : Image) (hn : 0 < n) (hp : p + n ≤ h.numBytes) :
    Returns (writeSpan disk h junk src n p) ↔ h.Covers n p := by
  unfold writeSpan
  constructor
  · rintro ⟨disk', hrun⟩
    obtain ⟨buf₁, -, hrun⟩ := bind_eq_ok.mp hrun
    obtain ⟨buf₂, -, hrun⟩ := bind_eq_ok.mp hrun
    obtain ⟨buf₃, hcopy, hrun⟩ := bind_eq_ok.mp hrun
    rw [covers_iff hn]
    refine ⟨(writeSectors_returns ..).mp ⟨disk', hrun⟩, ?_⟩
    unfold bcopyIn at hcopy
    split at hcopy
    · assumption
    · cases hcopy
  · intro hcovers
    have hspan := (covers_iff hn).mp hcovers
    obtain ⟨h0, hlists⟩ := hcovers
    have hfirst : divRoundDown p sectorSize = p / 128 := divRoundDown_of_nonneg h0
    have hlast : divRoundDown (p + n - 1) sectorSize = (p + n - 1) / 128 := divRoundDown_of_nonneg (by omega)
    rw [hfirst, hlast] at hspan ⊢
    obtain ⟨buf₁, h₁⟩ : Returns (readFirst disk h junk p (p / 128)) := by
      unfold readFirst
      split
      · exact readSectorInto_returns disk junk junk 0 (hlists _ (by omega) (by omega)) (by omega)
      · exact returns_ok _
    obtain ⟨buf₂, h₂⟩ : Returns (readLast disk h junk buf₁ n p (p / 128) ((p + n - 1) / 128)) := by
      unfold readLast
      split
      · exact readSectorInto_returns disk junk buf₁ _ (hlists _ (by omega) (by omega)) (by omega)
      · exact returns_ok _
    dsimp only
    rw [h₁, ok_bind, h₂, ok_bind]
    unfold bcopyIn
    rw [if_pos hspan.2, ok_bind, writeSectors_returns]
    exact hspan.1

theorem writeAt_returns (disk : Disk) (h : FileHeader) (junk src : Image) (hn : 0 < n) (hp : p < h.numBytes) :
    Returns (writeAt disk h junk src n p) ↔ p + n ≤ intMax ∧ h.Covers (clip h.fileLength n p) p := by
  have hclip : 0 < clip h.fileLength n p ∧ p + clip h.fileLength n p ≤ h.numBytes := by
    unfold clip fileLength
    split <;> omega
  unfold writeAt
  rw [if_neg (by unfold fileLength; omega)]
  split
  · exact iff_of_false (not_returns_error _) (by omega)
  · have hspan := returns_bind_iff (Q := True) (writeSpan_returns disk junk src hclip.1 hclip.2) fun x =>
      iff_of_true (returns_pure (clip h.fileLength n p, x)) trivial
    exact hspan.trans ⟨fun hc => ⟨by omega, hc.1⟩, fun hc => ⟨hc.2, trivial⟩⟩

/-! ## The range checks -/

theorem readAt_refused (hskip : n ≤ 0 ∨ h.numBytes ≤ p) : readAt disk h junk n p = .ok (0, junk) := if_pos hskip

theorem writeAt_refused (hskip : n ≤ 0 ∨ h.numBytes ≤ p) : writeAt disk h junk src n p = .ok (0, disk) := if_pos hskip

theorem clip_bounds (hn : 0 < n) (hp : p < h.numBytes) :
    0 < clip h.fileLength n p ∧ clip h.fileLength n p ≤ n ∧ p + clip h.fileLength n p = min (p + n) h.numBytes := by
  unfold clip fileLength
  split <;> omega

theorem readAt_count {k : Int} {bytes : Image} (hn : 0 < n) (hp : p < h.numBytes)
    (hrun : readAt disk h junk n p = .ok (k, bytes)) : k = clip h.fileLength n p := by
  unfold readAt at hrun
  rw [if_neg (by unfold fileLength; omega)] at hrun
  split at hrun
  · cases hrun
  · obtain ⟨b, -, hrun⟩ := bind_eq_ok.mp hrun
    cases hrun
    rfl

theorem writeAt_count {k : Int} {disk' : Disk} (hn : 0 < n) (hp : p < h.numBytes)
    (hrun : writeAt disk h junk src n p = .ok (k, disk')) : k = clip h.fileLength n p := by
  unfold writeAt at hrun
  rw [if_neg (by unfold fileLength; omega)] at hrun
  split at hrun
  · cases hrun
  · obtain ⟨d, -, hrun⟩ := bind_eq_ok.mp hrun
    cases hrun
    rfl

/-- `WriteAt` looks at the first `numBytes` bytes of the caller's buffer only. -/
theorem writeAt_congr {src' : Image} (hsrc : ∀ o : ℕ, o < n → src' o = src o) :
    writeAt disk h junk src' n p = writeAt disk h junk src n p := by
  by_cases hskip : n ≤ 0 ∨ h.numBytes ≤ p
  · rw [writeAt_refused hskip, writeAt_refused hskip]
  · have hclip := (clip_bounds (h := h) (n := n) (p := p) (by omega) (by omega)).2.1
    have hcopy : ∀ buf size pos, bcopyIn buf size pos src' (clip h.fileLength n p) =
        bcopyIn buf size pos src (clip h.fileLength n p) := by
      intro buf size pos
      unfold bcopyIn
      split
      · congr 1
        funext o
        unfold copy
        split
        · exact hsrc _ (by omega)
        · rfl
      · rfl
    unfold writeAt writeSpan
    simp only [hcopy]

/-- The headers that differ from `h` at most in entries of the table that `h` does not use. -/
structure SameListed (h h' : FileHeader) : Prop where
  numBytes : h'.numBytes = h.numBytes
  numSectors : h'.numSectors = h.numSectors
  dataSectors : ∀ i : ℕ, i < h.numSectors → h'.dataSectors i = h.dataSectors i

/-- Both calls stay inside their buffers and the sectors that the header lists, whatever the entries behind these are,
and transfer at most as many bytes as they are asked for. -/
def RangeChecked (h : FileHeader) (n p : Int) : Prop :=
  ∀ h' disk junk src, SameListed h h' →
    (∃ k bytes, readAt disk h' junk n p = .ok (k, bytes) ∧ 0 ≤ k ∧ k ≤ max 0 n) ∧
    ∃ k disk', writeAt disk h' junk src n p = .ok (k, disk') ∧ 0 ≤ k ∧ k ≤ max 0 n ∧
      ∀ src', (∀ o : ℕ, o < n → src' o = src o) → writeAt disk h' junk src' n p = .ok (k, disk')

theorem rangeChecked_of_refused (hskip : n ≤ 0 ∨ h.numBytes ≤ p) : RangeChecked h n p := by
  intro h' disk junk src hsame
  rw [← hsame.numBytes] at hskip
  exact ⟨⟨0, junk, readAt_refused hskip, le_rfl, le_max_left 0 n⟩,
    0, disk, writeAt_refused hskip, le_rfl, le_max_left 0 n, fun _ _ => writeAt_refused hskip⟩

theorem rangeChecked_of_covers (hn : 0 < n) (hp : p < h.numBytes) (hint : p + n ≤ intMax)
    (hcovers : ∀ h', SameListed h h' → h'.Covers (clip h'.fileLength n p) p) : RangeChecked h n p := by
  intro h' disk junk src hsame
  have hp' : p < h'.numBytes := by rw [hsame.numBytes]; exact hp
  have hclip := clip_bounds (h := h') hn hp'
  obtain ⟨⟨k, bytes⟩, hread⟩ := (readAt_returns disk h' junk hn hp').mpr ⟨hint, hcovers h' hsame⟩
  obtain ⟨⟨k', disk'⟩, hwrite⟩ := (writeAt_returns disk h' junk src hn hp').mpr ⟨hint, hcovers h' hsame⟩
  have hk := readAt_count hn hp' hread
  have hk' := writeAt_count hn hp' hwrite
  exact ⟨⟨k, bytes, hread, by omega, by omega⟩, k', disk', hwrite, by omega, by omega,
    fun src' hsrc => (writeAt_congr hsrc).trans hwrite⟩

/-- A call that is not refused needs a position in the file, a sum that is an int, and sectors that the header lists. -/
theorem RangeChecked.within (hchecked : RangeChecked h n p) (hn : 0 < n) (hp : p < h.numBytes) :
    0 ≤ p ∧ p + n ≤ intMax ∧ min (p + n) h.numBytes ≤ min h.numSectors numDirect * sectorSize := by
  obtain ⟨h', hsame, hspare⟩ : ∃ h', SameListed h h' ∧ ∀ i : ℕ, h.numSectors ≤ i → h'.dataSectors i = -1 :=
    ⟨{ h with dataSectors := fun i => if i < h.numSectors then h.dataSectors i else -1 },
      ⟨rfl, rfl, fun i hi => if_pos hi⟩, fun i hi => if_neg (Int.not_lt.mpr hi)⟩
  obtain ⟨⟨k, bytes, hread, -⟩, -⟩ := hchecked h' (fun _ _ => 0) (fun _ => 0) (fun _ => 0) hsame
  have hp' : p < h'.numBytes := by rw [hsame.numBytes]; exact hp
  obtain ⟨hint, h0, hlists⟩ := (readAt_returns _ _ _ hn hp').mp ⟨_, hread⟩
  have hclip := clip_bounds (h := h') hn hp'
  rw [hsame.numBytes] at hclip
  refine ⟨h0, hint, ?_⟩
  obtain ⟨hlast0, hdirect, hlisted, -⟩ := hlists ((p + clip h'.fileLength n p - 1) / 128) (by omega) le_rfl
  have hlast : (p + clip h'.fileLength n p - 1) / 128 < h.numSectors := by
    by_contra hge
    rw [hspare _ (by omega)] at hlisted
    omega
  simp only [numDirect, sectorSize] at hdirect ⊢
  omega

/-- The checks are complete exactly for requests that they refuse and for those at a position that is not negative, with
an end that is an int, in sectors that the header lists. -/
theorem rangeChecked_iff (h : FileHeader) (hlisted : ∀ i : ℕ, i < h.numSectors → i < numDirect →
      0 ≤ h.dataSectors i ∧ h.dataSectors i < Nachos.numSectors) (n p : Int) :
    RangeChecked h n p ↔ n ≤ 0 ∨ h.numBytes ≤ p ∨
      0 ≤ p ∧ p + n ≤ intMax ∧ min (p + n) h.numBytes ≤ min h.numSectors numDirect * sectorSize := by
  by_cases hskip : n ≤ 0 ∨ h.numBytes ≤ p
  · exact iff_of_true (rangeChecked_of_refused hskip) (or_assoc.mp (Or.inl hskip))
  · rw [← or_assoc, or_iff_right hskip]
    refine ⟨fun hchecked => hchecked.within (by omega) (by omega), fun ⟨h0, hint, hroom⟩ => ?_⟩
    refine rangeChecked_of_covers (by omega) (by omega) hint fun h' hsame => ⟨h0, fun i hfirst hlast => ?_⟩
    have hclip := clip_bounds (h := h') (n := n) (p := p) (by omega) (by rw [hsame.numBytes]; omega)
    rw [hsame.numBytes] at hclip
    simp only [numDirect, sectorSize] at hroom
    have hi : i < h.numSectors ∧ i < 30 := by omega
    obtain ⟨j, rfl⟩ := Int.eq_ofNat_of_zero_le (show 0 ≤ i by omega)
    refine ⟨by omega, by simp only [numDirect, sectorSize]; omega, ?_⟩
    rw [Int.toNat_natCast, hsame.dataSectors j hi.1]
    exact hlisted j hi.1 (by simp only [numDirect, sectorSize]; omega)

theorem rangeChecked_iff_fiveBytes : RangeChecked fiveBytes 3 4 ↔ (3 : Int) ≤ 0 ∨ fiveBytes.numBytes ≤ 4 ∨
    (0 : Int) ≤ 4 ∧ (4 : Int) + 3 ≤ intMax ∧
      min (4 + 3) fiveBytes.numBytes ≤ min fiveBytes.numSectors numDirect * sectorSize :=
  rangeChecked_iff fiveBytes (fun i hi _ => fiveBytes_wellFormed.inRange i hi) 3 4

/-- In a file of five bytes, a read at -1 begins before the buffer, one at -128 before the table, and the end of the
largest one at 1 is no int. -/
theorem ranges_unchecked :
    readAt (fun _ _ => 0) fiveBytes (fun _ => 0) 1 (-1) = .error (.outOfBounds .buffer) ∧
    readAt (fun _ _ => 0) fiveBytes (fun _ => 0) 1 (-128) = .error (.outOfBounds .dataSectors) ∧
    readAt (fun _ _ => 0) fiveBytes (fun _ => 0) intMax 1 = .error .overflow ∧
    ¬ RangeChecked fiveBytes 1 (-1) ∧ ¬ RangeChecked fiveBytes intMax 1 := by
  refine ⟨rfl, rfl, rfl, fun hchecked => ?_, fun hchecked => ?_⟩
  · exact absurd (hchecked.within (by decide) (by decide)).1 (by decide)
  · exact absurd (hchecked.within (by decide) (by decide)).2.1 (by decide)

end Nachos
