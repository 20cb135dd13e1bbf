import Nachos.Filesys.FileHeaderMeaning
import Nachos.Library.Ledger

/-! # The file system stays consistent

The disk is read as a ledger: the sectors `0` and `1` and the data sectors of the bitmap and directory
files are fixed, and each directory entry in use owns its header's sector and the data sectors listed
there. The free map is exact for this ledger. Creating a file gives fresh sectors to an unused entry,
removing one takes an entry's sectors back, and writing to a file changes none of the sectors the
ledger is read from. -/
set_option autoImplicit false

namespace Nachos
open Buffer Execution

variable {i : ℕ} {x : Int} {xs : List Int}

/-! ## The disk as a ledger -/

/-- The header of the bitmap file. -/
def mapHeader (disk : Disk) : FileHeader := FileHeader.ofImage (disk freeMapSector)

/-- The header of the directory file. -/
def dirHeader (disk : Disk) : FileHeader := FileHeader.ofImage (disk directorySector)

/-- What the on-disk free map marks. -/
def marked (disk : Disk) (x : Int) : Prop :=
  0 ≤ x ∧ x < numSectors ∧ BitMap.storedBit (mapHeader disk) disk x.toNat = true

/-- Entry `i` of the on-disk directory. -/
def entryAt (disk : Disk) (i : ℕ) : DirectoryEntry := Directory.storedEntry (dirHeader disk) disk i

/-- The header of the file of entry `i`. -/
def headerOf (disk : Disk) (i : ℕ) : FileHeader := FileHeader.ofImage (disk (entryAt disk i).sector.toNat)

/-- The sectors of entry `i`: none if it is not in use. -/
def ownSectors (disk : Disk) (i : ℕ) : List Int :=
  if (entryAt disk i).inUse then (entryAt disk i).sector :: (headerOf disk i).sectors else []

/-- The sectors of the file system itself. -/
def systemSectors (disk : Disk) : List Int :=
  [(freeMapSector : Int), (directorySector : Int)] ++ (mapHeader disk).sectors ++ (dirHeader disk).sectors

/-- What holds of the disk between two calls. -/
structure DiskOk (disk : Disk) : Prop where
  mapShaped : (mapHeader disk).Shaped
  dirShaped : (dirHeader disk).Shaped
  mapBytes : (mapHeader disk).numBytes = freeMapFileSize
  dirBytes : (dirHeader disk).numBytes = directoryFileSize
  exact : Ledger.Exact (marked disk) (systemSectors disk) numDirEntries (ownSectors disk)
  shaped : ∀ i < numDirEntries, (entryAt disk i).inUse = true → (headerOf disk i).Shaped
  names : ∀ i < numDirEntries, ∀ j < numDirEntries, (entryAt disk i).inUse = true →
    (entryAt disk j).inUse = true → (entryAt disk i).key = (entryAt disk j).key → i = j

variable {disk disk' : Disk}

theorem ownSectors_of_inUse (hu : (entryAt disk i).inUse = true) :
    ownSectors disk i = (entryAt disk i).sector :: (headerOf disk i).sectors := by
  unfold ownSectors
  rw [if_pos hu]

theorem ownSectors_of_unused (hu : (entryAt disk i).inUse = false) : ownSectors disk i = [] := by
  unfold ownSectors
  rw [if_neg (by simp [hu])]

namespace DiskOk

variable (ok : DiskOk disk)
include ok

theorem owned_range (hx : x ∈ Ledger.owned (systemSectors disk) numDirEntries (ownSectors disk)) :
    0 ≤ x ∧ x < numSectors := by
  have := (ok.exact.marked_iff x).mpr hx
  exact ⟨this.1, this.2.1⟩

theorem system_range (hx : x ∈ systemSectors disk) : 0 ≤ x ∧ x < numSectors :=
  ok.owned_range (Ledger.mem_owned.mpr (Or.inl hx))

theorem own_range (hi : i < numDirEntries) (hx : x ∈ ownSectors disk i) : 0 ≤ x ∧ x < numSectors :=
  ok.owned_range (Ledger.mem_owned.mpr (Or.inr ⟨i, hi, hx⟩))

theorem system_nodup : (systemSectors disk).Nodup := (List.nodup_append.mp ok.exact.nodup).1

theorem map_wellFormed : (mapHeader disk).WellFormed := by
  have hnd := ok.system_nodup
  unfold systemSectors at hnd
  refine ok.mapShaped.wellFormed (List.nodup_append.mp (List.nodup_append.mp hnd).1).2.1 ?_
  intro x hx
  exact ok.system_range (by simp [systemSectors, hx])

theorem dir_wellFormed : (dirHeader disk).WellFormed := by
  have hnd := ok.system_nodup
  unfold systemSectors at hnd
  refine ok.dirShaped.wellFormed (List.nodup_append.mp hnd).2.1 ?_
  intro x hx
  exact ok.system_range (by simp [systemSectors, hx])

theorem file_wellFormed (hi : i < numDirEntries) (hu : (entryAt disk i).inUse = true) :
    (headerOf disk i).WellFormed := by
  have hnd := ok.exact.slot_nodup hi
  rw [ownSectors_of_inUse hu] at hnd
  refine (ok.shaped i hi hu).wellFormed (List.nodup_cons.mp hnd).2 ?_
  intro x hx
  exact ok.own_range hi (by rw [ownSectors_of_inUse hu]; exact List.mem_cons_of_mem _ hx)

theorem sector_range (hi : i < numDirEntries) (hu : (entryAt disk i).inUse = true) :
    0 ≤ (entryAt disk i).sector ∧ (entryAt disk i).sector < numSectors :=
  ok.own_range hi (by rw [ownSectors_of_inUse hu]; exact List.mem_cons_self)

/-- The bitmap file's sectors are not the directory file's. -/
theorem map_dir_disjoint (hx : x ∈ (mapHeader disk).sectors) : x ∉ (dirHeader disk).sectors := by
  intro hd
  have hnd := ok.system_nodup
  unfold systemSectors at hnd
  exact (List.nodup_append.mp hnd).2.2 x (by simp [hx]) x hd rfl

/-- The header sectors `0` and `1` hold no data. -/
theorem root_notMem (hx : x = 0 ∨ x = 1) : x ∉ (mapHeader disk).sectors ∧ x ∉ (dirHeader disk).sectors := by
  have hnd := ok.system_nodup
  unfold systemSectors at hnd
  have hroot : x ∈ [(freeMapSector : Int), (directorySector : Int)] := by
    rcases hx with rfl | rfl <;> simp
  constructor
  · intro hm
    exact (List.nodup_append.mp (List.nodup_append.mp hnd).1).2.2 x hroot x hm rfl
  · intro hm
    exact (List.nodup_append.mp hnd).2.2 x (List.mem_append_left _ hroot) x hm rfl

end DiskOk

/-! ## Disks that differ in a few sectors -/

/-- Nothing outside the listed sectors has changed. -/
def AgreeOff (xs : List Int) (disk disk' : Disk) : Prop := ∀ t : ℕ, (t : Int) ∉ xs → disk' t = disk t

theorem AgreeOff.trans {ys : List Int} {d d' d'' : Disk} (h : AgreeOff xs d d') (h' : AgreeOff ys d' d'') :
    AgreeOff (xs ++ ys) d d'' := by
  intro t ht
  rw [List.mem_append, not_or] at ht
  rw [h' t ht.2, h t ht.1]

theorem AgreeOff.of_frame {h : FileHeader} (wf : h.WellFormed)
    (hf : ∀ t, (∀ i : ℕ, i < h.numSectors → t ≠ (h.dataSectors i).toNat) → disk' t = disk t) :
    AgreeOff h.sectors disk disk' := by
  intro t ht
  apply hf
  rintro i hi rfl
  apply ht
  rw [Int.toNat_of_nonneg (wf.inRange i hi).1]
  exact FileHeader.mem_sectors.mpr ⟨i, hi, rfl⟩

/-- The contents of a file whose sectors have not changed. -/
theorem byteAt_congr {h : FileHeader} (wf : h.WellFormed) (ha : AgreeOff xs disk disk') (hd : ∀ x ∈ h.sectors, x ∉ xs)
    {q : ℕ} (hq : q < h.numBytes) : h.byteAt disk' q = h.byteAt disk q := by
  have hi := wf.sector_lt hq
  have hr := (wf.inRange _ hi).1
  unfold FileHeader.byteAt
  rw [ha]
  rw [Int.toNat_of_nonneg hr]
  exact hd _ (FileHeader.mem_sectors.mpr ⟨_, hi, rfl⟩)

theorem storedBit_congr {h : FileHeader} (wf : h.WellFormed) (hb : h.numBytes = freeMapFileSize)
    (ha : AgreeOff xs disk disk') (hd : ∀ x ∈ h.sectors, x ∉ xs) (hi : i < numSectors) :
    BitMap.storedBit h disk' i = BitMap.storedBit h disk i := by
  unfold BitMap.storedBit
  rw [wordAt_congr]
  intro k hk
  refine byteAt_congr wf ha hd ?_
  simp only [freeMapFileSize, numSectors, sectorsPerTrack, numTracks, bitsInWord] at *
  omega

theorem storedEntry_congr {h : FileHeader} (wf : h.WellFormed) (hb : h.numBytes = directoryFileSize)
    (ha : AgreeOff xs disk disk') (hd : ∀ x ∈ h.sectors, x ∉ xs) (hi : i < numDirEntries) :
    (Directory.storedEntry h disk' i).Same (Directory.storedEntry h disk i) := by
  apply DirectoryEntry.ofImage_congr
  intro o ho
  refine byteAt_congr wf ha hd ?_
  simp only [directoryFileSize, numDirEntries, directoryEntrySize] at *
  omega

/-- Entry `i` and its header have survived. -/
structure Kept (disk disk' : Disk) (i : ℕ) : Prop where
  entry : (entryAt disk' i).Same (entryAt disk i)
  header : (entryAt disk i).inUse = true →
    disk' (entryAt disk i).sector.toNat = disk (entryAt disk i).sector.toNat

theorem Kept.headerOf_eq (hk : Kept disk disk' i) (hu : (entryAt disk i).inUse = true) :
    headerOf disk' i = headerOf disk i := by
  unfold headerOf
  rw [hk.entry.sector, hk.header hu]

theorem Kept.ownSectors_eq (hk : Kept disk disk' i) : ownSectors disk' i = ownSectors disk i := by
  cases hu : (entryAt disk i).inUse with
  | false =>
    rw [ownSectors_of_unused hu, ownSectors_of_unused (by rw [hk.entry.inUse, hu])]
  | true =>
    rw [ownSectors_of_inUse hu, ownSectors_of_inUse (by rw [hk.entry.inUse, hu]), hk.entry.sector,
      hk.headerOf_eq hu]

/-- A call has gone well: the disk is in order, the two system files have not moved, and the entries
of the listed indices are as before. -/
structure Preserves (disk disk' : Disk) (keep : ℕ → Prop) : Prop where
  ok : DiskOk disk'
  mapHeader : Nachos.mapHeader disk' = Nachos.mapHeader disk
  dirHeader : Nachos.dirHeader disk' = Nachos.dirHeader disk
  kept : ∀ i < numDirEntries, (entryAt disk i).inUse = true → keep i → Kept disk disk' i

theorem Preserves.refl (ok : DiskOk disk) (keep : ℕ → Prop) : Preserves disk disk keep :=
  ⟨ok, rfl, rfl, fun _ _ _ _ => ⟨⟨rfl, rfl, fun _ _ => rfl⟩, fun _ => rfl⟩⟩

/-- The system files have not moved: what is left to check of the new disk. -/
theorem DiskOk.rebuild (ok : DiskOk disk) (hmap : mapHeader disk' = mapHeader disk)
    (hdir : dirHeader disk' = dirHeader disk)
    (exact : Ledger.Exact (marked disk') (systemSectors disk) numDirEntries (ownSectors disk'))
    (shaped : ∀ i < numDirEntries, (entryAt disk' i).inUse = true → (headerOf disk' i).Shaped)
    (names : ∀ i < numDirEntries, ∀ j < numDirEntries, (entryAt disk' i).inUse = true →
      (entryAt disk' j).inUse = true → (entryAt disk' i).key = (entryAt disk' j).key → i = j) :
    DiskOk disk' where
  mapShaped := by rw [hmap]; exact ok.mapShaped
  dirShaped := by rw [hdir]; exact ok.dirShaped
  mapBytes := by rw [hmap]; exact ok.mapBytes
  dirBytes := by rw [hdir]; exact ok.dirBytes
  exact := by
    have hsame : systemSectors disk' = systemSectors disk := by
      unfold systemSectors
      rw [hmap, hdir]
    rw [hsame]
    exact exact
  shaped := shaped
  names := names

/-! ## Writing to a file -/

/-- The sectors of a file are none of the file system's own. -/
theorem DiskOk.system_disjoint (ok : DiskOk disk) (hi : i < numDirEntries) :
    ∀ x ∈ systemSectors disk, x ∉ ownSectors disk i :=
  fun _ hx hm => ok.exact.fixed_disjoint hi hx hm

theorem data_mem_ownSectors (hu : (entryAt disk i).inUse = true)
    (hx : x ∈ (headerOf disk i).sectors) : x ∈ ownSectors disk i := by
  rw [ownSectors_of_inUse hu]
  exact List.mem_cons_of_mem _ hx

/-- A change outside the system files changes neither the directory nor where they are. -/
theorem DiskOk.overwrite_entries (ok : DiskOk disk) (hsys : ∀ x ∈ systemSectors disk, x ∉ xs)
    (ha : AgreeOff xs disk disk') :
    mapHeader disk' = mapHeader disk ∧ dirHeader disk' = dirHeader disk ∧
      ∀ j < numDirEntries, (entryAt disk' j).Same (entryAt disk j) := by
  have hdir : dirHeader disk' = dirHeader disk := by
    unfold dirHeader
    rw [ha directorySector (hsys _ (by simp [systemSectors]))]
  refine ⟨?_, hdir, fun j hj => ?_⟩
  · unfold mapHeader
    rw [ha freeMapSector (hsys _ (by simp [systemSectors]))]
  · unfold entryAt
    rw [hdir]
    exact storedEntry_congr ok.dir_wellFormed ok.dirBytes ha
      (fun x hx => hsys x (by simp [systemSectors, hx])) hj

/-- The disk stays in order as long as no sector of the file system and no header is changed. -/
theorem DiskOk.overwrite (ok : DiskOk disk) (hsys : ∀ x ∈ systemSectors disk, x ∉ xs)
    (hheaders : ∀ j < numDirEntries, (entryAt disk j).inUse = true → (entryAt disk j).sector ∉ xs)
    (ha : AgreeOff xs disk disk') : Preserves disk disk' fun _ => True := by
  obtain ⟨hmap, hdir, hentry⟩ := ok.overwrite_entries hsys ha
  have hkept : ∀ j < numDirEntries, Kept disk disk' j := by
    intro j hj
    refine ⟨hentry j hj, fun huj => ?_⟩
    apply ha
    rw [Int.toNat_of_nonneg (ok.sector_range hj huj).1]
    exact hheaders j hj huj
  have hmarked : ∀ x, marked disk' x ↔ marked disk x := by
    intro x
    unfold marked
    rw [hmap]
    refine and_congr_right fun h0 => and_congr_right fun hlt => ?_
    rw [storedBit_congr ok.map_wellFormed ok.mapBytes ha
      (fun y hy => hsys y (by simp [systemSectors, hy])) (by omega)]
  refine ⟨ok.rebuild hmap hdir ?_ ?_ ?_, hmap, hdir, fun j hj _ _ => hkept j hj⟩
  · have howned := Ledger.owned_congr (systemSectors disk) fun j hj => (hkept j hj).ownSectors_eq
    exact ⟨by rw [howned]; exact ok.exact.nodup,
      fun x => by rw [howned, hmarked]; exact ok.exact.marked_iff x⟩
  · intro j hj huj
    rw [(hentry j hj).inUse] at huj
    rw [(hkept j hj).headerOf_eq huj]
    exact ok.shaped j hj huj
  · intro j hj k hk huj huk hkey
    rw [(hentry j hj).inUse] at huj
    rw [(hentry k hk).inUse] at huk
    rw [(hentry j hj).key, (hentry k hk).key] at hkey
    exact ok.names j hj k hk huj huk hkey

theorem DiskOk.system_not_data (ok : DiskOk disk) (hi : i < numDirEntries)
    (hu : (entryAt disk i).inUse = true) : ∀ x ∈ systemSectors disk, x ∉ (headerOf disk i).sectors :=
  fun x hx hm => ok.system_disjoint hi x hx (data_mem_ownSectors hu hm)

theorem DiskOk.write (ok : DiskOk disk) (hi : i < numDirEntries) (hu : (entryAt disk i).inUse = true)
    (ha : AgreeOff (headerOf disk i).sectors disk disk') : Preserves disk disk' fun _ => True := by
  refine ok.overwrite (ok.system_not_data hi hu) (fun j hj huj hm => ?_) ha
  by_cases hij : j = i
  · subst hij
    have hnd := ok.exact.slot_nodup hj
    rw [ownSectors_of_inUse hu] at hnd
    exact (List.nodup_cons.mp hnd).1 hm
  · refine ok.exact.slots_disjoint hi hj (Ne.symm hij) (data_mem_ownSectors hu hm) ?_
    rw [ownSectors_of_inUse huj]
    exact List.mem_cons_self

/-! ## Rewriting the directory and the free map -/

/-- `disk'` differs in the two system files and in sectors that were free: headers stay where they
are. -/
theorem entryAt_of_dirHeader (hdir : dirHeader disk' = dirHeader disk) (j : ℕ) :
    entryAt disk' j = Directory.storedEntry (dirHeader disk) disk' j := by
  unfold entryAt
  rw [hdir]

theorem DiskOk.system_update (ok : DiskOk disk) (extra : List Int) (hextra : ∀ x ∈ extra, ¬ marked disk x)
    (ha : AgreeOff (extra ++ ((dirHeader disk).sectors ++ (mapHeader disk).sectors)) disk disk') :
    mapHeader disk' = mapHeader disk ∧ dirHeader disk' = dirHeader disk ∧
      ∀ j < numDirEntries, (entryAt disk j).inUse = true →
        disk' (entryAt disk j).sector.toNat = disk (entryAt disk j).sector.toNat := by
  have hroot : ∀ x : Int, x = 0 ∨ x = 1 →
      x ∉ extra ++ ((dirHeader disk).sectors ++ (mapHeader disk).sectors) := by
    intro x hx hm
    have hmem : x ∈ systemSectors disk := by
      rcases hx with rfl | rfl <;> simp [systemSectors]
    simp only [List.mem_append] at hm
    rcases hm with hm | hm | hm
    · exact hextra x hm ((ok.exact.marked_iff x).mpr (Ledger.mem_owned.mpr (Or.inl hmem)))
    · exact (ok.root_notMem hx).2 hm
    · exact (ok.root_notMem hx).1 hm
  refine ⟨?_, ?_, fun j hj hu => ?_⟩
  · unfold mapHeader
    rw [ha freeMapSector (hroot _ (Or.inl rfl))]
  · unfold dirHeader
    rw [ha directorySector (hroot _ (Or.inr rfl))]
  · have hown : (entryAt disk j).sector ∈ ownSectors disk j := by
      rw [ownSectors_of_inUse hu]
      exact List.mem_cons_self
    apply ha
    rw [Int.toNat_of_nonneg (ok.sector_range hj hu).1]
    intro hm
    simp only [List.mem_append] at hm
    rcases hm with hm | hm | hm
    · exact hextra _ hm ((ok.exact.marked_iff _).mpr (Ledger.mem_owned.mpr (Or.inr ⟨j, hj, hown⟩)))
    · exact ok.exact.fixed_disjoint hj (by simp [systemSectors, hm]) hown
    · exact ok.exact.fixed_disjoint hj (by simp [systemSectors, hm]) hown

/-- An unused entry is given the sector `w` and the sectors that the header in `w` lists. -/
theorem DiskOk.create (ok : DiskOk disk) (hi : i < numDirEntries) (hunused : (entryAt disk i).inUse = false) {w : ℕ}
    (name : Image) (ha : AgreeOff ([(w : Int)] ++ ((dirHeader disk).sectors ++ (mapHeader disk).sectors)) disk disk')
    (hothers : ∀ j < numDirEntries, j ≠ i → (Directory.storedEntry (dirHeader disk) disk' j).Same (entryAt disk j))
    (hnew : (Directory.storedEntry (dirHeader disk) disk' i).Same ⟨true, w, name⟩)
    (hshaped : (FileHeader.ofImage (disk' w)).Shaped)
    (hnd : ((w : Int) :: (FileHeader.ofImage (disk' w)).sectors).Nodup)
    (hfree : ∀ x ∈ (w : Int) :: (FileHeader.ofImage (disk' w)).sectors, 0 ≤ x ∧ x < numSectors ∧ ¬ marked disk x)
    (hbits : ∀ x : ℕ, x < numSectors → (BitMap.storedBit (mapHeader disk) disk' x = true ↔
      BitMap.storedBit (mapHeader disk) disk x = true ∨ (x : Int) ∈ (w : Int) :: (FileHeader.ofImage (disk' w)).sectors))
    (hname : ∀ j < numDirEntries, (entryAt disk j).inUse = true → (entryAt disk j).key ≠ cstring fileNameMaxLen name) :
    Preserves disk disk' fun _ => True := by
  obtain ⟨hmap, hdir, hheader⟩ := ok.system_update [(w : Int)]
    (fun x hx => (hfree x (by rw [List.mem_singleton.mp hx]; exact List.mem_cons_self)).2.2) ha
  have hentry := entryAt_of_dirHeader hdir
  have hkept : ∀ j < numDirEntries, j ≠ i → Kept disk disk' j :=
    fun j hj hne => ⟨by rw [hentry]; exact hothers j hj hne, hheader j hj⟩
  have hui : (entryAt disk' i).inUse = true := by rw [hentry, hnew.inUse]
  have hhdr : headerOf disk' i = FileHeader.ofImage (disk' w) := by
    unfold headerOf
    rw [hentry, hnew.sector, Int.toNat_natCast]
  have hown : ownSectors disk' i = (w : Int) :: (FileHeader.ofImage (disk' w)).sectors := by
    rw [ownSectors_of_inUse hui, hhdr, hentry, hnew.sector]
  have hkey : (entryAt disk' i).key = cstring fileNameMaxLen name := by
    rw [hentry]
    exact hnew.key
  refine ⟨ok.rebuild hmap hdir ?_ ?_ ?_, hmap, hdir, fun j hj hu _ => hkept j hj ?_⟩
  · refine ok.exact.give hi (ownSectors_of_unused hunused)
      (fun j hj hne => (hkept j hj hne).ownSectors_eq) (by rw [hown]; exact hnd) ?_ ?_
    · intro x hx
      rw [hown] at hx
      exact (hfree x hx).2.2
    · intro x
      rw [hown]
      unfold marked
      rw [hmap]
      constructor
      · rintro ⟨h0, hlt, hbit⟩
        rcases (hbits x.toNat (by omega)).mp hbit with hb | hb
        · exact Or.inl ⟨h0, hlt, hb⟩
        · rw [Int.toNat_of_nonneg h0] at hb
          exact Or.inr hb
      · rintro (⟨h0, hlt, hbit⟩ | hmem)
        · exact ⟨h0, hlt, (hbits x.toNat (by omega)).mpr (Or.inl hbit)⟩
        · obtain ⟨h0, hlt, -⟩ := hfree x hmem
          refine ⟨h0, hlt, (hbits x.toNat (by omega)).mpr (Or.inr ?_)⟩
          rw [Int.toNat_of_nonneg h0]
          exact hmem
  · intro j hj hu
    by_cases hji : j = i
    · rw [hji, hhdr]
      exact hshaped
    · rw [(hkept j hj hji).entry.inUse] at hu
      rw [(hkept j hj hji).headerOf_eq hu]
      exact ok.shaped j hj hu
  · intro j hj k hk huj huk hjk
    by_cases hji : j = i <;> by_cases hki : k = i
    · rw [hji, hki]
    · rw [(hkept k hk hki).entry.inUse] at huk
      rw [hji, hkey, (hkept k hk hki).entry.key] at hjk
      exact absurd hjk.symm (hname k hk huk)
    · rw [(hkept j hj hji).entry.inUse] at huj
      rw [hki, hkey, (hkept j hj hji).entry.key] at hjk
      exact absurd hjk (hname j hj huj)
    · rw [(hkept j hj hji).entry.inUse] at huj
      rw [(hkept k hk hki).entry.inUse] at huk
      rw [(hkept j hj hji).entry.key, (hkept k hk hki).entry.key] at hjk
      exact ok.names j hj k hk huj huk hjk
  · rintro rfl
    rw [hunused] at hu
    cases hu

/-- Entry `i` gives its sectors back. -/
theorem DiskOk.remove (ok : DiskOk disk) (hi : i < numDirEntries)
    (ha : AgreeOff ((dirHeader disk).sectors ++ (mapHeader disk).sectors) disk disk')
    (hothers : ∀ j < numDirEntries, j ≠ i → (Directory.storedEntry (dirHeader disk) disk' j).Same (entryAt disk j))
    (hgone : (Directory.storedEntry (dirHeader disk) disk' i).inUse = false)
    (hbits : ∀ x : ℕ, x < numSectors → (BitMap.storedBit (mapHeader disk) disk' x = true ↔
      BitMap.storedBit (mapHeader disk) disk x = true ∧ (x : Int) ∉ ownSectors disk i)) :
    Preserves disk disk' fun j => j ≠ i := by
  obtain ⟨hmap, hdir, hheader⟩ := ok.system_update [] (by simp) ha
  have hentry := entryAt_of_dirHeader hdir
  have hkept : ∀ j < numDirEntries, j ≠ i → Kept disk disk' j :=
    fun j hj hne => ⟨by rw [hentry]; exact hothers j hj hne, hheader j hj⟩
  have hne : ∀ j, (entryAt disk' j).inUse = true → j ≠ i := by
    rintro j hu rfl
    rw [hentry, hgone] at hu
    cases hu
  refine ⟨ok.rebuild hmap hdir ?_ ?_ ?_, hmap, hdir, fun j hj _ hji => hkept j hj hji⟩
  · refine ok.exact.takeBack hi (ownSectors_of_unused (by rw [hentry]; exact hgone))
      (fun j hj hji => (hkept j hj hji).ownSectors_eq) ?_
    intro x
    unfold marked
    rw [hmap]
    constructor
    · rintro ⟨h0, hlt, hbit⟩
      obtain ⟨hb, hno⟩ := (hbits x.toNat (by omega)).mp hbit
      rw [Int.toNat_of_nonneg h0] at hno
      exact ⟨⟨h0, hlt, hb⟩, hno⟩
    · rintro ⟨⟨h0, hlt, hb⟩, hno⟩
      refine ⟨h0, hlt, (hbits x.toNat (by omega)).mpr ⟨hb, ?_⟩⟩
      rw [Int.toNat_of_nonneg h0]
      exact hno
  · intro j hj hu
    have hk := hkept j hj (hne j hu)
    rw [hk.entry.inUse] at hu
    rw [hk.headerOf_eq hu]
    exact ok.shaped j hj hu
  · intro j hj k hk huj huk hjk
    have hkj := hkept j hj (hne j huj)
    have hkk := hkept k hk (hne k huk)
    rw [hkj.entry.inUse] at huj
    rw [hkk.entry.inUse] at huk
    rw [hkj.entry.key, hkk.entry.key] at hjk
    exact ok.names j hj k hk huj huk hjk

end Nachos
