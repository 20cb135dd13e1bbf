import Nachos.Machine.Interrupt

/-! # The latency of a disk request (`machine/disk.cc`)

The head is over one sector for `RotationTime` ticks, so the time in these units, modulo the sectors of a track,
says which sector it is over. The ticks are 64-bit numbers, but `ComputeLatency` and `UpdateLast` keep the time at which
the head has arrived in an `int`. -/
set_option autoImplicit false

namespace Nachos
open Buffer Execution

abbrev rotationTime : ℕ := 500
abbrev seekTime : ℕ := 500

/-- The fields of `Disk` from which a latency is computed. -/
structure DiskHead where
  lastSector : Fin numSectors
  bufferInit : Int
  bufferInit_int : -2147483648 ≤ bufferInit ∧ bufferInit ≤ intMax
  deriving DecidableEq, Repr

/-- `Disk::ModuloDiff`. -/
def moduloDiff (target current : Int) : Int :=
  let toOffset := target.tmod sectorsPerTrack
  let fromOffset := current.tmod sectorsPerTrack
  ((toOffset - fromOffset) + sectorsPerTrack).tmod sectorsPerTrack

namespace DiskHead

def new : DiskHead := ⟨0, 0, by decide⟩

/-- The ticks it takes to move to the track of `newSector`. -/
def seek (head : DiskHead) (newSector : Fin numSectors) : ℕ :=
  let newTrack := newSector.val / sectorsPerTrack
  let oldTrack := head.lastSector.val / sectorsPerTrack
  ((newTrack : Int) - oldTrack).natAbs * seekTime

/-- `Disk::TimeToSeek`: the seek, and the rotation up to the next sector boundary. -/
def timeToSeek (head : DiskHead) (totalTicks : ℕ) (newSector : Fin numSectors) : ℕ × ℕ :=
  let seek := head.seek newSector
  let ticksOver := uint64 (totalTicks + seek) % rotationTime
  (seek, if ticksOver > 0 then rotationTime - ticksOver else 0)

/-- The time at which the head has arrived, in an `int`. -/
def timeAfter (head : DiskHead) (totalTicks : ℕ) (newSector : Fin numSectors) : Int :=
  let (seek, rotation) := head.timeToSeek totalTicks newSector
  int32 (uint64 (totalTicks + seek + rotation))

/-- The test of `ComputeLatency` for a sector that is in the track buffer. -/
def trackBuffer (head : DiskHead) (totalTicks : ℕ) (newSector : Fin numSectors) (writing : Bool) : Call Bool :=
  if writing = false ∧ head.seek newSector = 0 then
    let since := head.timeAfter totalTicks newSector - head.bufferInit
    if -2147483648 ≤ since ∧ since ≤ intMax then
      .ok (since.tdiv rotationTime > moduloDiff newSector (head.bufferInit.tdiv rotationTime))
    else .error .overflow
  else .ok false

/-- `Disk::ComputeLatency`. -/
def computeLatency (head : DiskHead) (totalTicks : ℕ) (newSector : Fin numSectors) (writing : Bool) : Call Int := do
  let (seek, rotation) := head.timeToSeek totalTicks newSector
  if ← head.trackBuffer totalTicks newSector writing then return rotationTime
  let sectors := moduloDiff newSector ((head.timeAfter totalTicks newSector).tdiv rotationTime)
  return seek + (rotation + sectors * rotationTime) + rotationTime

/-- `Disk::UpdateLast`. -/
def updateLast (head : DiskHead) (totalTicks : ℕ) (newSector : Fin numSectors) : DiskHead :=
  if head.seek newSector ≠ 0 then
    ⟨newSector, head.timeAfter totalTicks newSector, (int32_spec _).1, (int32_spec _).2.1⟩
  else { head with lastSector := newSector }

end DiskHead

/-! ## Rotation -/

/-- C remainders differ from the numbers by multiples of the modulus, whatever their sign. -/
theorem tmod_sectors (a : Int) : ∃ k, a.tmod sectorsPerTrack = a + sectorsPerTrack * k := by
  have h := Int.tmod_add_tdiv_mul a sectorsPerTrack
  refine ⟨-(a.tdiv sectorsPerTrack), ?_⟩
  simp only [sectorsPerTrack] at *
  omega

/-- The way from one sector to another, also where the present one is negative. -/
theorem moduloDiff_spec {target : Int} (current : Int) (htarget : 0 ≤ target) :
    0 ≤ moduloDiff target current ∧ moduloDiff target current < sectorsPerTrack ∧
      (current + moduloDiff target current) % sectorsPerTrack = target % sectorsPerTrack := by
  have hto : 0 ≤ target.tmod sectorsPerTrack := Int.tmod_nonneg _ htarget
  have hfrom : current.tmod sectorsPerTrack < sectorsPerTrack := Int.tmod_lt_of_pos _ (by decide)
  have hsum : 0 ≤ (target.tmod sectorsPerTrack - current.tmod sectorsPerTrack) + sectorsPerTrack := by omega
  obtain ⟨k, hk⟩ := tmod_sectors target
  obtain ⟨k', hk'⟩ := tmod_sectors current
  unfold moduloDiff
  dsimp only
  rw [Int.tmod_eq_emod_of_nonneg hsum, hk, hk']
  simp only [sectorsPerTrack]
  omega

namespace DiskHead

theorem seek_le (head : DiskHead) (newSector : Fin numSectors) : head.seek newSector ≤ 15500 := by
  have hnew := newSector.isLt
  have hold := head.lastSector.isLt
  unfold seek
  simp only [numSectors, sectorsPerTrack, numTracks, seekTime] at *
  omega

/-- The first sector boundary once the seek is over. -/
def arrival (head : DiskHead) (totalTicks : ℕ) (newSector : Fin numSectors) : ℕ :=
  (totalTicks + head.seek newSector + (rotationTime - 1)) / rotationTime * rotationTime

section Arrival

variable {head : DiskHead} {totalTicks : ℕ} {newSector : Fin numSectors}

/-- Without a wrap-around the rotation ends on the first sector boundary. -/
theorem timeToSeek_arrival (h : totalTicks + head.seek newSector < 18446744073709551616) :
    totalTicks + head.seek newSector + (head.timeToSeek totalTicks newSector).2 =
      head.arrival totalTicks newSector := by
  unfold timeToSeek arrival
  dsimp only
  rw [Simulation.uint64_of_lt h]
  simp only [rotationTime]
  split <;> omega

/-- After a wrap-around it ends between two. -/
theorem timeToSeek_wrapped (ht : totalTicks < 18446744073709551616)
    (h : ¬ totalTicks + head.seek newSector < 18446744073709551616) :
    (totalTicks + head.seek newSector + (head.timeToSeek totalTicks newSector).2) % rotationTime = 116 := by
  have hseek := head.seek_le newSector
  have hover : uint64 (totalTicks + head.seek newSector) = totalTicks + head.seek newSector - 18446744073709551616 := by
    unfold uint64
    omega
  unfold timeToSeek
  dsimp only
  rw [hover]
  simp only [rotationTime]
  split <;> omega

theorem int32_uint64 (x : ℕ) : int32 (uint64 x) = int32 x := by
  unfold int32 uint64
  rw [Int.natCast_emod, Int.bmod_def, Int.bmod_def, Int.emod_emod_of_dvd _ (by decide)]

theorem timeAfter_arrival (h : totalTicks + head.seek newSector < 18446744073709551616) :
    head.timeAfter totalTicks newSector = int32 (head.arrival totalTicks newSector) := by
  rw [← timeToSeek_arrival h, ← int32_uint64]
  rfl

end Arrival

/-! ## Latency -/

/-- A request takes the time to transfer a sector at least; and unless the track buffer has the sector, the
transfer ends as the head leaves that sector. -/
def LatencyRight (head : DiskHead) (totalTicks : ℕ) (newSector : Fin numSectors) (writing : Bool) : Prop :=
  ∃ latency, head.computeLatency totalTicks newSector writing = .ok latency ∧ rotationTime ≤ latency ∧
    (head.trackBuffer totalTicks newSector writing ≠ .ok true →
      (totalTicks + latency) % rotationTime = 0 ∧
      ((totalTicks + latency) / rotationTime - 1) % sectorsPerTrack = (newSector : Int) % sectorsPerTrack)

/-- The `int` tells the sector that the head is over as it arrives. -/
def ArrivalFits (head : DiskHead) (totalTicks : ℕ) (newSector : Fin numSectors) : Prop :=
  let arrival := head.arrival totalTicks newSector
  totalTicks + head.seek newSector < 18446744073709551616 ∧
    (int32 arrival).tdiv rotationTime % sectorsPerTrack = (arrival : Int) / rotationTime % sectorsPerTrack

/-- A read on the track of the head does not overflow as it asks how long the track buffer has been filled. -/
def SinceFits (head : DiskHead) (totalTicks : ℕ) (newSector : Fin numSectors) (writing : Bool) : Prop :=
  writing = false → head.seek newSector = 0 →
    -2147483648 ≤ int32 (head.arrival totalTicks newSector) - head.bufferInit ∧
      int32 (head.arrival totalTicks newSector) - head.bufferInit ≤ intMax

section Latency

variable {head : DiskHead} {totalTicks : ℕ} {newSector : Fin numSectors} {writing : Bool}

theorem trackBuffer_returns (ht : totalTicks < 18446744073709551616) :
    Returns (head.trackBuffer totalTicks newSector writing) ↔ head.SinceFits totalTicks newSector writing := by
  unfold trackBuffer SinceFits
  dsimp only
  split
  · next hsame =>
    rw [timeAfter_arrival (by rw [hsame.2]; exact ht)]
    split
    · next hfits => exact ⟨fun _ _ _ => hfits, fun _ => returns_ok _⟩
    · next hfits => exact ⟨fun h => absurd h (not_returns_error _), fun h => absurd (h hsame.1 hsame.2) hfits⟩
  · next hother => exact ⟨fun _ hread hseek => absurd ⟨hread, hseek⟩ hother, fun _ => returns_ok _⟩

theorem computeLatency_buffered (h : head.trackBuffer totalTicks newSector writing = .ok true) :
    head.computeLatency totalTicks newSector writing = .ok rotationTime := by
  unfold computeLatency
  rw [h]
  rfl

/-- The sectors that pass before the one asked for is under the head. -/
def sectors (head : DiskHead) (totalTicks : ℕ) (newSector : Fin numSectors) : Int :=
  moduloDiff newSector ((head.timeAfter totalTicks newSector).tdiv rotationTime)

theorem computeLatency_rotating (h : head.trackBuffer totalTicks newSector writing = .ok false) :
    head.computeLatency totalTicks newSector writing =
      .ok (head.seek newSector +
        ((head.timeToSeek totalTicks newSector).2 + head.sectors totalTicks newSector * rotationTime) + rotationTime) := by
  unfold computeLatency
  rw [h]
  rfl

theorem timeToSeek_rotation (head : DiskHead) (totalTicks : ℕ) (newSector : Fin numSectors) :
    (head.timeToSeek totalTicks newSector).2 < rotationTime := by
  unfold timeToSeek
  simp only [rotationTime]
  split <;> omega

/-- A latency is the time to transfer a sector at least, and no `int` overflows as the latter is added to the rest. -/
theorem computeLatency_bounds {latency : Int} (h : head.computeLatency totalTicks newSector writing = .ok latency) :
    rotationTime ≤ latency ∧ latency ≤ 32000 := by
  have hcheck := h
  unfold computeLatency at hcheck
  obtain ⟨buffered, hbuffer, -⟩ := bind_eq_ok.mp hcheck
  cases buffered with
  | true =>
    rw [computeLatency_buffered hbuffer] at h
    cases h
    decide
  | false =>
    rw [computeLatency_rotating hbuffer] at h
    obtain rfl := Except.ok.inj h
    have hseek := head.seek_le newSector
    have hrotation := head.timeToSeek_rotation totalTicks newSector
    have hsectors : 0 ≤ head.sectors totalTicks newSector ∧ head.sectors totalTicks newSector < sectorsPerTrack := by
      obtain ⟨hnonneg, hlt, -⟩ := moduloDiff_spec _ (Int.natCast_nonneg newSector.val)
      exact ⟨hnonneg, hlt⟩
    simp only [rotationTime, sectorsPerTrack] at *
    omega

/-- Where the transfer ends, if the head arrives at the `m`-th sector boundary and `here` is taken for `m`. -/
theorem transfer_end {totalTicks seek rotation m : ℕ} {sectors here target : Int}
    (hboundary : totalTicks + seek + rotation = m * rotationTime)
    (hsectors : (here + sectors) % sectorsPerTrack = target % sectorsPerTrack) :
    (totalTicks + (seek + (rotation + sectors * rotationTime) + rotationTime)) % rotationTime = 0 ∧
      (((totalTicks + (seek + (rotation + sectors * rotationTime) + rotationTime)) / rotationTime - 1) % sectorsPerTrack =
        target % sectorsPerTrack ↔ here % sectorsPerTrack = m % sectorsPerTrack) := by
  have hend : (totalTicks + (seek + (rotation + sectors * rotationTime) + rotationTime) : Int) =
      (m + sectors + 1) * rotationTime := by
    simp only [rotationTime] at *
    omega
  rw [hend]
  simp only [rotationTime, sectorsPerTrack] at *
  omega

theorem rotating_right_iff (ht : totalTicks < 18446744073709551616)
    (h : head.trackBuffer totalTicks newSector writing = .ok false) :
    head.LatencyRight totalTicks newSector writing ↔ head.ArrivalFits totalTicks newSector := by
  have hsectors : ((head.timeAfter totalTicks newSector).tdiv rotationTime + head.sectors totalTicks newSector) %
      sectorsPerTrack = (newSector : Int) % sectorsPerTrack := (moduloDiff_spec _ (Int.natCast_nonneg _)).2.2
  have hlatency := computeLatency_rotating h
  have hrotates : head.trackBuffer totalTicks newSector writing ≠ .ok true := by
    rw [h]
    nofun
  by_cases hfits : totalTicks + head.seek newSector < 18446744073709551616
  · have hboundary := timeToSeek_arrival hfits
    have harrival : (head.arrival totalTicks newSector : Int) / rotationTime =
        ((totalTicks + head.seek newSector + (rotationTime - 1)) / rotationTime : ℕ) := by
      unfold arrival
      simp only [rotationTime]
      omega
    obtain ⟨hend, hsame⟩ := transfer_end hboundary hsectors
    rw [timeAfter_arrival hfits, ← harrival] at hsame
    constructor
    · rintro ⟨latency, heq, -, hright⟩
      rw [hlatency] at heq
      obtain rfl := Except.ok.inj heq
      exact ⟨hfits, hsame.mp (hright hrotates).2⟩
    · intro hright
      exact ⟨_, hlatency, (computeLatency_bounds hlatency).1, fun _ => ⟨hend, hsame.mpr hright.2⟩⟩
  · have hwrapped := timeToSeek_wrapped ht hfits
    refine ⟨fun hright => ?_, fun hright => absurd hright.1 hfits⟩
    obtain ⟨latency, heq, -, hright⟩ := hright
    rw [hlatency] at heq
    obtain rfl := Except.ok.inj heq
    have hboundary := (hright hrotates).1
    simp only [rotationTime] at *
    omega

theorem right_of_fits (ht : totalTicks < 18446744073709551616) (hsince : head.SinceFits totalTicks newSector writing)
    (h : head.trackBuffer totalTicks newSector writing = .ok true ∨ head.ArrivalFits totalTicks newSector) :
    head.LatencyRight totalTicks newSector writing := by
  obtain ⟨buffered, hbuffer⟩ := (trackBuffer_returns ht).mpr hsince
  cases buffered with
  | true =>
    exact ⟨rotationTime, computeLatency_buffered hbuffer, Int.le_refl _, fun hrotates => absurd hbuffer hrotates⟩
  | false =>
    refine (rotating_right_iff ht hbuffer).mpr (h.resolve_left ?_)
    rw [hbuffer]
    nofun

/-- Latencies are right as long as the arrival of the head can be told from its `int`. -/
theorem latencyRight_iff (ht : totalTicks < 18446744073709551616) :
    head.LatencyRight totalTicks newSector writing ↔
      head.SinceFits totalTicks newSector writing ∧
        (head.trackBuffer totalTicks newSector writing = .ok true ∨ head.ArrivalFits totalTicks newSector) := by
  constructor
  · intro hright
    have hcall : Returns (head.computeLatency totalTicks newSector writing) := hright.imp fun _ h => h.1
    unfold computeLatency at hcall
    obtain ⟨buffered, hbuffer, -⟩ := returns_bind.mp hcall
    refine ⟨(trackBuffer_returns ht).mp ⟨buffered, hbuffer⟩, ?_⟩
    cases buffered with
    | true => exact .inl hbuffer
    | false => exact .inr ((rotating_right_iff ht hbuffer).mp hright)
  · rintro ⟨hsince, h⟩
    exact right_of_fits ht hsince h

end Latency

/-- A write to sector 0 as the disk is new. -/
theorem latencyRight_iff_write : (1200 : ℕ) < 18446744073709551616 ∧ new.LatencyRight 1200 0 true := by
  refine ⟨by decide, (latencyRight_iff (by decide)).mpr ⟨nofun, .inr ⟨by decide, ?_⟩⟩⟩
  decide

/-- After `2 ^ 31` ticks the `int` is negative: the transfer to sector 0 ends as sector 14 passes. -/
theorem latency_of_late_write :
    new.computeLatency 2147483648 0 true = .ok 11852 ∧
      new.trackBuffer 2147483648 0 true = .ok false ∧
      ((2147483648 + 11852) / rotationTime - 1) % sectorsPerTrack = 14 ∧
      ¬ new.LatencyRight 2147483648 0 true := by
  have hlatency : new.computeLatency 2147483648 0 true = .ok 11852 := by decide
  refine ⟨hlatency, by decide, by decide, ?_⟩
  rintro ⟨latency, heq, -, hright⟩
  rw [hlatency] at heq
  cases heq
  exact absurd (hright (by decide)).2 (by decide)

end DiskHead

end Nachos
