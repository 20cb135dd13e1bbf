import Nachos.Filesys.Consistency

/-! # Every run of the file system

`Create`, `Open` and `Remove` return on a disk in order and leave one; formatting produces one from
any disk. By induction over the calls every reached state is consistent. -/
set_option autoImplicit false

namespace Nachos
open Buffer Execution

variable {b : BitMap} {i : ℕ} {d : Directory} {size : Int}

variable {disk : Disk} {fs : FileSystem}

/-- The open system files are those the disk's headers describe. -/
structure Mounted (fs : FileSystem) (disk : Disk) : Prop where
  map : fs.freeMapFile.hdr = mapHeader disk
  dir : fs.directoryFile.hdr = dirHeader disk

theorem Mounted.mapFile_eq (hm : Mounted fs disk) :
    fs.freeMapFile = ⟨mapHeader disk, fs.freeMapFile.seekPosition⟩ := by
  rw [← hm.map]

/-! ## Fetching the system files -/

/-- What looking a name up relies on. -/
structure DirOk (disk : Disk) : Prop where
  wellFormed : (dirHeader disk).WellFormed
  bytes : (dirHeader disk).numBytes = directoryFileSize
  range : ∀ i < numDirEntries, (entryAt disk i).inUse = true →
    0 ≤ (entryAt disk i).sector ∧ (entryAt disk i).sector < numSectors
  names : ∀ i < numDirEntries, ∀ j < numDirEntries, (entryAt disk i).inUse = true →
    (entryAt disk j).inUse = true → (entryAt disk i).key = (entryAt disk j).key → i = j

theorem DiskOk.dirOk (ok : DiskOk disk) : DirOk disk :=
  ⟨ok.dir_wellFormed, ok.dirBytes, fun _ hi hu => ok.sector_range hi hu, ok.names⟩

theorem fetchDirectory_spec (ok : DirOk disk) (hdir : fs.directoryFile.hdr = dirHeader disk) (junk : ℕ → Image) :
    ∃ d, fs.fetchDirectory junk disk = .ok d ∧ d.tableSize = numDirEntries ∧
      ∀ i < numDirEntries, (d.table i).Same (entryAt disk i) := by
  have hb := ok.bytes
  have hfile : fs.directoryFile = ⟨dirHeader disk, fs.directoryFile.seekPosition⟩ := by rw [← hdir]
  unfold FileSystem.fetchDirectory
  rw [hfile]
  exact Directory.fetchFrom_spec ok.wellFormed (Directory.new (junk 0) numDirEntries) disk _ (junk 1)
    (by rw [hb]; exact le_of_eq rfl) (by rw [hb]; decide)

theorem newFreeMap_spec (junk : Image) :
    ∃ b, FileSystem.newFreeMap junk = .ok b ∧ b.numBits = (numSectors : ℕ) ∧
      ∀ i < numSectors, b.bit i = false :=
  BitMap.new_spec _

theorem numWords_freeMap (hb : b.numBits = (numSectors : ℕ)) : b.numWords * 4 = (freeMapFileSize : ℕ) := by
  rw [b.numWords_eq (by omega), hb]
  decide

theorem fetchFreeMap_spec (ok : DiskOk disk) (hm : Mounted fs disk) (junk : ℕ → Image) :
    ∃ b, fs.fetchFreeMap junk disk = .ok b ∧ b.numBits = (numSectors : ℕ) ∧
      ∀ i < numSectors, b.bit i = BitMap.storedBit (mapHeader disk) disk i := by
  have hb := ok.mapBytes
  obtain ⟨c, hc, hbits, -⟩ := newFreeMap_spec (junk 2)
  obtain ⟨b, hrun, hbits', hset⟩ := BitMap.fetchFrom_spec ok.map_wellFormed c disk
    fs.freeMapFile.seekPosition (junk 3) (by omega) (by rw [numWords_freeMap hbits, hb]) (by rw [hb]; decide)
  refine ⟨b, ?_, hbits'.trans hbits, fun i hi => hset i (by omega)⟩
  unfold FileSystem.fetchFreeMap
  rw [hc, ok_bind, hm.mapFile_eq]
  exact hrun

theorem ofImage_sector_bounds (m : Image) (i : ℕ) :
    -2147483648 ≤ (DirectoryEntry.ofImage m i).sector ∧ (DirectoryEntry.ofImage m i).sector < 2147483648 := by
  have h1 := BitVec.le_toInt (wordAt m (directoryEntrySize * i + 4))
  have h2 := BitVec.toInt_lt (x := wordAt m (directoryEntrySize * i + 4))
  simp only [DirectoryEntry.ofImage]
  omega

/-! ## Writing the system files back -/

variable {h : FileHeader} {file : OpenFile}

/-- The directory is rewritten: its file then holds the table. -/
theorem writeDirectory_spec (wf : h.WellFormed) (hb : h.numBytes = directoryFileSize) (hf : file.hdr = h)
    (d : Directory) (junk : Image) (hsize : d.tableSize = numDirEntries) (hsector : ∀ i < numDirEntries,
      -2147483648 ≤ (d.table i).sector ∧ (d.table i).sector < 2147483648) (disk₁ : Disk) :
    ∃ disk₂, d.writeBack disk₁ file junk = .ok disk₂ ∧ AgreeOff h.sectors disk₁ disk₂ ∧
      ∀ i < numDirEntries, (Directory.storedEntry h disk₂ i).Same (d.table i) := by
  obtain ⟨disk₂, hrun, hin, hout⟩ := Directory.writeBack_spec wf d disk₁ file.seekPosition junk
    (by rw [hb, hsize]; decide) (by rw [hb]; decide)
  rw [← hf] at hrun
  refine ⟨disk₂, hrun, AgreeOff.of_frame wf hout, fun i hi => ?_⟩
  obtain ⟨hlow, hhigh⟩ := hsector i hi
  exact (hin i (by omega)).trans (d.ofImage_image i hlow hhigh)

/-- The free map is rewritten: its file then holds the bits. -/
theorem writeFreeMap_spec (wf : h.WellFormed) (hb : h.numBytes = freeMapFileSize) (hf : file.hdr = h)
    (b : BitMap) (junk : Image) (hbits : b.numBits = (numSectors : ℕ)) (disk₁ : Disk) :
    ∃ disk₂, b.writeBack disk₁ file junk = .ok disk₂ ∧ AgreeOff h.sectors disk₁ disk₂ ∧
      ∀ i < numSectors, BitMap.storedBit h disk₂ i = b.bit i := by
  obtain ⟨disk₂, hrun, hin, hout⟩ := BitMap.writeBack_spec wf b disk₁ file.seekPosition junk (by omega)
    (by rw [numWords_freeMap hbits, hb]) (by rw [hb]; decide)
  rw [← hf] at hrun
  exact ⟨disk₂, hrun, AgreeOff.of_frame wf hout, fun i hi => hin i (by omega)⟩

/-- Rewriting the free map leaves the directory alone. -/
theorem storedEntry_of_map (ok : DiskOk disk) {disk₁ disk₂ : Disk} (ha : AgreeOff (mapHeader disk).sectors disk₁ disk₂)
    (hi : i < numDirEntries) :
    (Directory.storedEntry (dirHeader disk) disk₂ i).Same (Directory.storedEntry (dirHeader disk) disk₁ i) :=
  storedEntry_congr ok.dir_wellFormed ok.dirBytes ha
    (fun _ hx hm => ok.map_dir_disjoint hm hx) hi

theorem storedBit_of_dir (ok : DiskOk disk) {disk₁ disk₂ : Disk} (ha : AgreeOff (dirHeader disk).sectors disk₁ disk₂)
    (hi : i < numSectors) : BitMap.storedBit (mapHeader disk) disk₂ i = BitMap.storedBit (mapHeader disk) disk₁ i :=
  storedBit_congr ok.map_wellFormed ok.mapBytes ha (fun _ hx => ok.map_dir_disjoint hx) hi

/-! ## Looking a name up -/

/-- Entry `i` is in use under the name. -/
structure FileAt (disk : Disk) (name : Image) (i : ℕ) : Prop where
  lt : i < numDirEntries
  inUse : (entryAt disk i).inUse = true
  key : (entryAt disk i).key = cstring fileNameMaxLen name

/-- A fetched directory finds no entry, or the entry in use under the name. -/
theorem find_cases (ok : DirOk disk) (hsize : d.tableSize = numDirEntries)
    (hsame : ∀ i < numDirEntries, (d.table i).Same (entryAt disk i)) (name : Image) :
    (d.find name = -1 ∧ d.findIndex name = -1 ∧ ∀ i, ¬ FileAt disk name i) ∨
    ∃ i, FileAt disk name i ∧ d.findIndex name = i ∧ d.find name = (entryAt disk i).sector ∧ d.find name ≠ -1 := by
  rcases d.findIndex_spec name with ⟨hrun, hall⟩ | ⟨i, hrun, hi, hu, hkey⟩
  · refine Or.inl ⟨by simp [Directory.find, hrun], hrun, fun i hfile => ?_⟩
    refine hall i (by rw [hsize]; exact hfile.lt) ⟨?_, ?_⟩
    · rw [(hsame i hfile.lt).inUse, hfile.inUse]
    · rw [(hsame i hfile.lt).key, hfile.key]
  · rw [hsize] at hi
    rw [(hsame i hi).inUse] at hu
    rw [(hsame i hi).key] at hkey
    have hfind : d.find name = (entryAt disk i).sector := by
      unfold Directory.find
      rw [hrun, if_pos (by omega), Int.toNat_natCast, (hsame i hi).sector]
    have hr := (ok.range i hi hu).1
    exact Or.inr ⟨i, ⟨hi, hu, hkey⟩, hrun, hfind, by omega⟩

/-! ## Create -/

theorem writeSector_eq_ok {disk : Disk} {w : ℕ} (hw : w < numSectors) (data : Image) :
    writeSector disk w data = .ok (Function.update disk w (copy (disk w) 0 data sectorSize)) := by
  unfold writeSector
  rw [if_pos ⟨by omega, by omega⟩, Int.toNat_natCast]

theorem not_marked_of_clear {x : ℕ} (hset : b.bit x = BitMap.storedBit (mapHeader disk) disk x)
    (hclear : b.bit x = false) : ¬ marked disk x := by
  rintro ⟨-, -, hbit⟩
  rw [Int.toNat_natCast, ← hset, hclear] at hbit
  cases hbit

/-- The write-backs of `Create`, whatever the disk holds by then: the header goes to the sector `w`, and the files of the
directory and of the free map are what the copies in memory are. -/
theorem writeBacks_spec (ok : DiskOk disk) (hm : Mounted fs disk) (junk : ℕ → Image)
    (hsize : d.tableSize = numDirEntries) (hsame : ∀ j < numDirEntries, (d.table j).Same (entryAt disk j))
    (name : Image) (i : ℕ) {w : ℕ} (hw : w < numSectors) {c : BitMap} (hbits : c.numBits = (numSectors : ℕ))
    (g : FileHeader) (disk₁ : Disk) :
    ∃ disk₂ disk₃, (d.setEntry i ⟨true, w, name⟩).writeBack
        (Function.update disk₁ w (copy (disk₁ w) 0 g.image sectorSize)) fs.directoryFile (junk 5) = .ok disk₂ ∧
      c.writeBack disk₂ fs.freeMapFile (junk 6) = .ok disk₃ ∧
      AgreeOff ((dirHeader disk).sectors ++ (mapHeader disk).sectors)
        (Function.update disk₁ w (copy (disk₁ w) 0 g.image sectorSize)) disk₃ ∧
      AgreeOff ([(w : Int)] ++ ((dirHeader disk).sectors ++ (mapHeader disk).sectors)) disk₁ disk₃ ∧
      (∀ j < numDirEntries, (Directory.storedEntry (dirHeader disk) disk₃ j).Same
        ((d.setEntry i ⟨true, w, name⟩).table j)) ∧
      ∀ x < numSectors, BitMap.storedBit (mapHeader disk) disk₃ x = c.bit x := by
  obtain ⟨disk₂, hrun₂, ha₂, hentry⟩ := writeDirectory_spec ok.dir_wellFormed ok.dirBytes hm.dir
    (d.setEntry i ⟨true, w, name⟩) (junk 5) hsize (by
      intro j hj
      simp only [Directory.setEntry, Function.update_apply]
      split
      · simp only [numSectors, sectorsPerTrack, numTracks] at hw
        simp only []
        omega
      · rw [(hsame j hj).sector]
        exact ofImage_sector_bounds _ j) (Function.update disk₁ w (copy (disk₁ w) 0 g.image sectorSize))
  obtain ⟨disk₃, hrun₃, ha₃, hstored⟩ := writeFreeMap_spec ok.map_wellFormed ok.mapBytes hm.map c
    (junk 6) hbits disk₂
  have ha₁ : AgreeOff [(w : Int)] disk₁ (Function.update disk₁ w (copy (disk₁ w) 0 g.image sectorSize)) := by
    intro t ht
    exact Function.update_of_ne (by simpa using ht) _ _
  exact ⟨disk₂, disk₃, hrun₂, hrun₃, ha₂.trans ha₃, ha₁.trans (ha₂.trans ha₃),
    fun j hj => (storedEntry_of_map ok ha₃ hj).trans (hentry j hj), hstored⟩

/-- The writes at the end of `Create`, once the header has its sectors: the header goes to the sector `w` and the
entry `i` of the directory. -/
theorem createFile_frame (ok : DiskOk disk) (hm : Mounted fs disk) (junk : ℕ → Image)
    (hsize : d.tableSize = numDirEntries) (hsame : ∀ j < numDirEntries, (d.table j).Same (entryAt disk j))
    (name : Image) (hi : i < numDirEntries) {w : ℕ} (hw : w < numSectors) (hfree : ¬ marked disk w) {c : BitMap}
    {g : FileHeader} (halloc : (FileHeader.ofImage (junk 4)).allocate b size = .ok (true, g, c))
    (hbits : c.numBits = (numSectors : ℕ)) :
    ∃ disk', fs.createFile junk disk (d.setEntry i ⟨true, w, name⟩) b w size = .ok (true, disk') ∧
      AgreeOff ([(w : Int)] ++ ((dirHeader disk).sectors ++ (mapHeader disk).sectors)) disk disk' ∧
      (∀ j < numDirEntries, j ≠ i → (Directory.storedEntry (dirHeader disk) disk' j).Same (entryAt disk j)) ∧
      (Directory.storedEntry (dirHeader disk) disk' i).Same ⟨true, w, name⟩ ∧
      disk' w = copy (disk w) 0 g.image sectorSize ∧
      ∀ x < numSectors, BitMap.storedBit (mapHeader disk) disk' x = c.bit x := by
  obtain ⟨disk₂, disk₃, hrun₂, hrun₃, hframe, hframe', hentry, hstored⟩ :=
    writeBacks_spec ok hm junk hsize hsame name i hw hbits g disk
  have hsys : (w : Int) ∉ systemSectors disk := fun hmem =>
    hfree ((ok.exact.marked_iff _).mpr (Ledger.mem_owned.mpr (Or.inl hmem)))
  refine ⟨disk₃, ?_, hframe', fun j hj hji => ?_, ?_, ?_, hstored⟩
  · simp only [FileSystem.createFile, halloc, FileHeader.writeBack, writeSector_eq_ok hw, hrun₂, hrun₃,
      ok_bind, pure_eq_ok, Bool.not_true, Bool.false_eq_true, if_false]
  · refine (hentry j hj).trans ?_
    rw [show (d.setEntry i _).table j = d.table j from Function.update_of_ne hji _ _]
    exact hsame j hj
  · have hnew := hentry i hi
    rwa [show (d.setEntry i _).table i = _ from Function.update_self _ _ _] at hnew
  · rw [hframe w, Function.update_self]
    rw [List.mem_append, not_or]
    exact ⟨fun hmem => hsys (by simp [systemSectors, hmem]), fun hmem => hsys (by simp [systemSectors, hmem])⟩

/-- `Create` once the header's sector `w` and the entry `i` are chosen. -/
theorem createFile_spec (ok : DiskOk disk) (hm : Mounted fs disk) (junk : ℕ → Image) (h0 : 0 ≤ size)
    (hmax : size ≤ maxFileSize) (hsize : d.tableSize = numDirEntries)
    (hsame : ∀ j < numDirEntries, (d.table j).Same (entryAt disk j)) {name : Image} (hname : ∀ j, ¬ FileAt disk name j)
    (hi : i < numDirEntries) (hunused : (entryAt disk i).inUse = false) {w : ℕ} (hw : w < numSectors)
    (hfree : ¬ marked disk w) (hbits : b.numBits = (numSectors : ℕ))
    (hset : ∀ x < numSectors, (b.bit x = true ↔ BitMap.storedBit (mapHeader disk) disk x = true ∨ x = w)) :
    ∃ r disk', fs.createFile junk disk
        (d.setEntry i ⟨true, w, strncpy fileNameMaxLen (d.table i).name name⟩) b w size = .ok (r, disk') ∧
      Preserves disk disk' fun _ => True := by
  by_cases hc : divRoundUp size sectorSize ≤ b.clearCount
  · obtain ⟨g, c, halloc, hshaped, -, hnd, hclear, hbits', hset', -⟩ :=
      FileHeader.allocate_ok (FileHeader.ofImage (junk 4)) b size h0 hmax hc
    have hrange : ∀ x ∈ g.sectors, 0 ≤ x ∧ x < numSectors := fun x hx =>
      ⟨(hclear x hx).1, by have := (hclear x hx).2.1; omega⟩
    have hunmarked : ∀ x ∈ g.sectors, x ≠ w ∧ ¬ marked disk x := by
      intro x hx
      obtain ⟨hx0, -, hbit⟩ := hclear x hx
      have hlt := (hrange x hx).2
      have hoff : ¬ (BitMap.storedBit (mapHeader disk) disk x.toNat = true ∨ x.toNat = w) := by
        rw [← hset x.toNat (by omega), hbit]
        simp
      refine ⟨fun he => hoff (Or.inr (by omega)), fun hmk => hoff (Or.inl hmk.2.2)⟩
    obtain ⟨disk', hrun, ha, hothers, hnew, hat, hstored⟩ := createFile_frame ok hm junk hsize hsame
      (strncpy fileNameMaxLen (d.table i).name name) hi hw hfree halloc (hbits'.trans hbits)
    obtain ⟨-, hsectors, hshaped'⟩ := FileHeader.ofImage_image hshaped hrange (disk w)
    refine ⟨true, disk', hrun, ok.create hi hunused (strncpy fileNameMaxLen (d.table i).name name) ha hothers hnew
      (by rw [hat]; exact hshaped') ?_ ?_ ?_ ?_⟩
    · rw [hat, hsectors]
      exact List.nodup_cons.mpr ⟨fun hmem => (hunmarked _ hmem).1 rfl, hnd⟩
    · intro x hx
      rw [hat, hsectors] at hx
      rcases List.mem_cons.mp hx with rfl | hx
      · exact ⟨by omega, by omega, hfree⟩
      · exact ⟨(hrange x hx).1, (hrange x hx).2, (hunmarked x hx).2⟩
    · intro x hx
      rw [hat, hsectors, hstored x hx, hset', hset x hx, List.mem_cons, or_assoc, Int.natCast_inj]
    · intro j hj hu hkey
      rw [cstring_strncpy] at hkey
      exact hname j ⟨hj, hu, hkey⟩
  · obtain ⟨g, halloc⟩ := FileHeader.allocate_fail (FileHeader.ofImage (junk 4)) b size (by omega)
    exact ⟨false, disk, by simp [FileSystem.createFile, halloc], Preserves.refl ok _⟩

/-- `Create` up to the choice of a sector and an entry: it gives up as there is such a file, no free sector or no free
entry, or goes on with a free sector and an entry that is not in use. -/
theorem create_cases (ok : DiskOk disk) (hm : Mounted fs disk) (junk : ℕ → Image) (name : Image) (size : Int) :
    (fs.create junk disk name size = .ok (false, disk) ∧ ((∃ j, FileAt disk name j) ∨
      (∀ x < numSectors, marked disk x) ∨ ∀ j < numDirEntries, (entryAt disk j).inUse = true)) ∨
    ((∀ j, ¬ FileAt disk name j) ∧ ∃ d : Directory, d.tableSize = numDirEntries ∧
      (∀ j < numDirEntries, (d.table j).Same (entryAt disk j)) ∧ ∃ i < numDirEntries, (entryAt disk i).inUse = false ∧
      ∃ w < numSectors, ¬ marked disk w ∧ (∀ x < w, marked disk x) ∧ ∃ b : BitMap, b.numBits = (numSectors : ℕ) ∧
      (∀ x < numSectors, (b.bit x = true ↔ BitMap.storedBit (mapHeader disk) disk x = true ∨ x = w)) ∧
      fs.create junk disk name size = fs.createFile junk disk
        (d.setEntry i ⟨true, w, strncpy fileNameMaxLen (d.table i).name name⟩) b w size) := by
  obtain ⟨d, hd, hsize, hsame⟩ := fetchDirectory_spec ok.dirOk hm.dir junk
  rcases find_cases ok.dirOk hsize hsame name with ⟨hfind, hidx, hname⟩ | ⟨i, hfile, hidx, hfind, hne⟩
  · obtain ⟨b, hb, hbits, hset⟩ := fetchFreeMap_spec ok hm junk
    rcases b.findFrom_spec 0 b.numBits.toNat (by omega) with ⟨hnone, hall⟩ | ⟨w, c, hw, hlt, hclear, hbelow, hbits', hset'⟩
    · refine Or.inl ⟨?_, Or.inr (Or.inl fun x hx => ⟨by omega, by omega, ?_⟩)⟩
      · simp [FileSystem.create, hd, hb, BitMap.find, hnone]
      · rw [Int.toNat_natCast, ← hset x hx]
        exact hall x (by omega) (by omega)
    · have hw' : w < numSectors := by omega
      rcases d.addFrom_spec name w 0 d.tableSize with ⟨hfull, hused⟩ | ⟨i, hi, hu, hadd⟩
      · refine Or.inl ⟨?_, Or.inr (Or.inr fun j hj => ?_)⟩
        · simp [FileSystem.create, hd, hfind, hb, BitMap.find, hw, Directory.add, hidx, hfull]
        · rw [← (hsame j hj).inUse]
          exact hused j (by omega) (by omega)
      · rw [hsize, Nat.zero_add] at hi
        rw [(hsame i hi).inUse] at hu
        refine Or.inr ⟨hname, d, hsize, hsame, i, hi, hu, w, hw', not_marked_of_clear (hset w hw') hclear,
          fun x hx => ⟨by omega, by omega, ?_⟩, c, hbits'.trans hbits, fun x hx => ?_, ?_⟩
        · rw [Int.toNat_natCast, ← hset x (by omega)]
          exact hbelow x (by omega) hx
        · rw [hset', ← hset x hx]
          by_cases h : x = w <;> simp [h]
        · have hw1 : ¬ ((w : Int) = -1) := by omega
          simp only [FileSystem.create, hd, hfind, hb, BitMap.find, hw, Directory.add, hidx, hadd, ok_bind,
            ne_eq, not_true_eq_false, if_false, hw1, Bool.not_true, Bool.false_eq_true]
  · refine Or.inl ⟨?_, Or.inl ⟨i, hfile⟩⟩
    simp [FileSystem.create, hd, hne]

theorem create_spec (ok : DiskOk disk) (hm : Mounted fs disk) (junk : ℕ → Image) (name : Image) (h0 : 0 ≤ size)
    (hmax : size ≤ maxFileSize) :
    ∃ r disk', fs.create junk disk name size = .ok (r, disk') ∧ Preserves disk disk' fun _ => True := by
  rcases create_cases ok hm junk name size with
    ⟨hfail, -⟩ | ⟨hname, d, hsize, hsame, i, hi, hu, w, hw, hfree, -, b, hbits, hset, hrun⟩
  · exact ⟨false, disk, hfail, Preserves.refl ok _⟩
  · rw [hrun]
    exact createFile_spec ok hm junk h0 hmax hsize hsame hname hi hu hw hfree hbits hset

/-! ## Open and Remove -/

theorem lookup_spec (ok : DirOk disk) (hdir : fs.directoryFile.hdr = dirHeader disk) (junk : ℕ → Image)
    (name : Image) : ∃ sector, fs.lookup junk disk name = .ok sector ∧
      ((sector = -1 ∧ ∀ i, ¬ FileAt disk name i) ∨
        ∃ i, FileAt disk name i ∧ sector = (entryAt disk i).sector) := by
  obtain ⟨d, hd, hsize, hsame⟩ := fetchDirectory_spec ok hdir junk
  refine ⟨d.find name, by simp only [FileSystem.lookup, hd, ok_bind, pure_eq_ok], ?_⟩
  rcases find_cases ok hsize hsame name with ⟨hfind, -, hnone⟩ | ⟨i, hfile, -, hfind, -⟩
  · exact Or.inl ⟨hfind, hnone⟩
  · exact Or.inr ⟨i, hfile, hfind⟩

theorem openAt_eq {x : Int} (h0 : 0 ≤ x) (hlt : x < numSectors) :
    OpenFile.openAt disk x = .ok ⟨FileHeader.ofImage (disk x.toNat), 0⟩ := by
  simp only [OpenFile.openAt, FileHeader.fetchFrom, readSector, if_pos (And.intro h0 hlt), ok_bind,
    pure_eq_ok]

theorem openFile_spec (ok : DirOk disk) (hdir : fs.directoryFile.hdr = dirHeader disk) (junk : ℕ → Image)
    (name : Image) :
    (fs.lookup junk disk name = .ok (-1) ∧ fs.openFile junk disk name = .ok none ∧ ∀ i, ¬ FileAt disk name i) ∨
    ∃ i, FileAt disk name i ∧ fs.lookup junk disk name = .ok (entryAt disk i).sector ∧
      fs.openFile junk disk name = .ok (some ⟨headerOf disk i, 0⟩) := by
  obtain ⟨sector, hlook, hsector⟩ := lookup_spec ok hdir junk name
  rcases hsector with ⟨rfl, hnone⟩ | ⟨i, hfile, rfl⟩
  · refine Or.inl ⟨hlook, ?_, hnone⟩
    simp [FileSystem.openFile, hlook]
  · obtain ⟨h0, hlt⟩ := ok.range i hfile.lt hfile.inUse
    refine Or.inr ⟨i, hfile, hlook, ?_⟩
    simp only [FileSystem.openFile, hlook, ok_bind, pure_eq_ok, h0, if_true, openAt_eq h0 hlt]
    rfl

/-- `Remove` of a file returns: its sectors are marked, as the `ASSERT` of `Deallocate` expects. -/
theorem remove_frame (ok : DiskOk disk) (hm : Mounted fs disk) (junk : ℕ → Image) {name : Image}
    (hd : fs.fetchDirectory junk disk = .ok d) (hsize : d.tableSize = numDirEntries)
    (hsame : ∀ j < numDirEntries, (d.table j).Same (entryAt disk j)) (hfile : FileAt disk name i)
    (hidx : d.findIndex name = i) (hfind : d.find name = (entryAt disk i).sector) (hne : d.find name ≠ -1) :
    ∃ disk', fs.remove junk disk name = .ok (true, disk') ∧
      AgreeOff ((dirHeader disk).sectors ++ (mapHeader disk).sectors) disk disk' ∧
      (∀ j < numDirEntries, j ≠ i → (Directory.storedEntry (dirHeader disk) disk' j).Same (entryAt disk j)) ∧
      (Directory.storedEntry (dirHeader disk) disk' i).inUse = false ∧
      ∀ x : ℕ, x < numSectors → (BitMap.storedBit (mapHeader disk) disk' x = true ↔
        BitMap.storedBit (mapHeader disk) disk x = true ∧ (x : Int) ∉ ownSectors disk i) := by
  obtain ⟨hi, hu, -⟩ := hfile
  obtain ⟨h0, hlt⟩ := ok.sector_range hi hu
  obtain ⟨w, hw⟩ := Int.eq_ofNat_of_zero_le h0
  have hown := ownSectors_of_inUse hu
  have hnd := ok.exact.slot_nodup hi
  rw [hown] at hnd
  obtain ⟨b, hb, hbits, hset⟩ := fetchFreeMap_spec ok hm junk
  have hmarked : ∀ x ∈ (headerOf disk i).sectors, 0 ≤ x ∧ x < b.numBits ∧ b.bit x.toNat = true := by
    intro x hx
    obtain ⟨hx0, hxlt, hbit⟩ := (ok.exact.marked_iff x).mpr (Ledger.mem_owned.mpr
      (Or.inr ⟨i, hi, by rw [hown]; exact List.mem_cons_of_mem _ hx⟩))
    exact ⟨hx0, by omega, by rw [hset _ (by omega), hbit]⟩
  obtain ⟨c, hdealloc, hbits', hset'⟩ :=
    FileHeader.deallocate_spec (ok.shaped i hi hu) b (List.nodup_cons.mp hnd).2 hmarked
  obtain ⟨e, hclear, hbits'', hset''⟩ := c.clear_spec (w := w) (by omega)
  obtain ⟨disk₁, hrun₁, ha₁, hstored⟩ := writeFreeMap_spec ok.map_wellFormed ok.mapBytes hm.map e
    (junk 4) (by omega) disk
  obtain ⟨disk₂, hrun₂, ha₂, hentry⟩ := writeDirectory_spec ok.dir_wellFormed ok.dirBytes hm.dir
    (d.setEntry i { d.table i with inUse := false }) (junk 5) hsize (by
      intro j hj
      simp only [Directory.setEntry, Function.update_apply]
      split
      · next hji =>
        rw [← hji, (hsame j hj).sector]
        exact ofImage_sector_bounds _ j
      · rw [(hsame j hj).sector]
        exact ofImage_sector_bounds _ j) disk₁
  refine ⟨disk₂, ?_, fun t ht => ?_, fun j hj hji => ?_, ?_, fun x hx => ?_⟩
  · have hfetch : FileHeader.fetchFrom disk (w : Int) = .ok (headerOf disk i) := by
      rw [← hw]
      simp only [FileHeader.fetchFrom, readSector, if_pos (And.intro h0 hlt), ok_bind, pure_eq_ok]
      rfl
    have hremove : d.remove name = (true, d.setEntry i { d.table i with inUse := false }) := by
      simp [Directory.remove, hidx]
    rw [hfind, hw] at hne
    simp only [FileSystem.remove, hd, hfind, hw, hne, if_false, hfetch, hb, hdealloc, hclear, hrun₁, hremove,
      hrun₂, ok_bind, pure_eq_ok]
  · rw [List.mem_append, not_or] at ht
    rw [ha₂ t ht.1, ha₁ t ht.2]
  · refine (hentry j hj).trans ?_
    rw [show (d.setEntry i _).table j = d.table j from Function.update_of_ne hji _ _]
    exact hsame j hj
  · rw [(hentry i hi).inUse]
    simp [Directory.setEntry]
  · rw [storedBit_of_dir ok ha₂ hx, hstored x hx, hset'', hown, hw, List.mem_cons, Int.natCast_inj]
    by_cases hxw : x = w
    · simp [hxw]
    · simp [hxw, hset', hset x hx]

/-- `Remove` finds nothing, or takes the entry of the file out of the directory. -/
theorem remove_cases (ok : DiskOk disk) (hm : Mounted fs disk) (junk : ℕ → Image) (name : Image) :
    (fs.lookup junk disk name = .ok (-1) ∧ fs.remove junk disk name = .ok (false, disk) ∧
      ∀ i, ¬ FileAt disk name i) ∨
    ∃ i disk', FileAt disk name i ∧ fs.lookup junk disk name = .ok (entryAt disk i).sector ∧
      fs.remove junk disk name = .ok (true, disk') ∧
      AgreeOff ((dirHeader disk).sectors ++ (mapHeader disk).sectors) disk disk' ∧
      (∀ j < numDirEntries, j ≠ i → (Directory.storedEntry (dirHeader disk) disk' j).Same (entryAt disk j)) ∧
      (Directory.storedEntry (dirHeader disk) disk' i).inUse = false ∧ Preserves disk disk' fun j => j ≠ i := by
  obtain ⟨d, hd, hsize, hsame⟩ := fetchDirectory_spec ok.dirOk hm.dir junk
  have hlook : fs.lookup junk disk name = .ok (d.find name) := by
    simp only [FileSystem.lookup, hd, ok_bind, pure_eq_ok]
  rcases find_cases ok.dirOk hsize hsame name with ⟨hfind, -, hnone⟩ | ⟨i, hfile, hidx, hfind, hne⟩
  · exact Or.inl ⟨by rw [hlook, hfind], by simp [FileSystem.remove, hd, hfind], hnone⟩
  · obtain ⟨disk', hrun, ha, hothers, hgone, hbits⟩ := remove_frame ok hm junk hd hsize hsame hfile hidx hfind hne
    exact Or.inr ⟨i, disk', hfile, by rw [hlook, hfind], hrun, ha, hothers, hgone,
      ok.remove hfile.lt ha hothers hgone hbits⟩

theorem remove_spec (ok : DiskOk disk) (hm : Mounted fs disk) (junk : ℕ → Image) (name : Image) :
    ∃ sector r disk', fs.lookup junk disk name = .ok sector ∧ fs.remove junk disk name = .ok (r, disk') ∧
      Preserves disk disk' fun j => (entryAt disk j).sector ≠ sector := by
  rcases remove_cases ok hm junk name with ⟨hlook, hrun, -⟩ | ⟨i, disk', -, hlook, hrun, -, -, -, hpres⟩
  · exact ⟨_, false, disk, hlook, hrun, Preserves.refl ok _⟩
  · refine ⟨_, true, disk', hlook, hrun, hpres.ok, hpres.mapHeader, hpres.dirHeader, fun j hj hu hjs =>
      hpres.kept j hj hu ?_⟩
    rintro rfl
    exact hjs rfl

/-! ## Formatting -/

theorem clearCount_of_clear (hbits : b.numBits = (numSectors : ℕ))
    (hclear : ∀ i < numSectors, b.bit i = false) : b.clearCount = numSectors := by
  unfold BitMap.clearCount
  rw [hbits, Int.toNat_natCast, Nat.count_iff_forall]
  exact hclear

/-- The bitmap marks the sectors of the two system files and their headers, and nothing else. -/
structure Planned (b : BitMap) (mapHdr dirHdr : FileHeader) : Prop where
  numBits : b.numBits = (numSectors : ℕ)
  mapShaped : mapHdr.Shaped
  dirShaped : dirHdr.Shaped
  mapBytes : mapHdr.numBytes = freeMapFileSize
  dirBytes : dirHdr.numBytes = directoryFileSize
  nodup : ([(0 : Int), 1] ++ mapHdr.sectors ++ dirHdr.sectors).Nodup
  inRange : ∀ x ∈ [(0 : Int), 1] ++ mapHdr.sectors ++ dirHdr.sectors, 0 ≤ x ∧ x < numSectors
  bits : ∀ x < numSectors, (b.bit x = true ↔ (x : Int) ∈ [(0 : Int), 1] ++ mapHdr.sectors ++ dirHdr.sectors)

theorem formatHeaders_spec (junk : ℕ → Image) :
    ∃ b mapHdr dirHdr, FileSystem.formatHeaders junk = .ok (b, mapHdr, dirHdr) ∧ Planned b mapHdr dirHdr := by
  obtain ⟨b₀, hrun₀, hbits₀, hclear₀⟩ := newFreeMap_spec (junk 0)
  have hcount₀ := clearCount_of_clear hbits₀ hclear₀
  obtain ⟨b₁, hrun₁, hbits₁, hset₁⟩ := b₀.mark_spec (w := freeMapSector) (by rw [hbits₀]; decide)
  have hcount₁ := BitMap.clearCount_mark (w := freeMapSector) (by rw [hbits₀]; decide)
    (hclear₀ 0 (by decide)) hbits₁ hset₁
  obtain ⟨b₂, hrun₂, hbits₂, hset₂⟩ := b₁.mark_spec (w := directorySector) (by rw [hbits₁, hbits₀]; decide)
  have hcount₂ := BitMap.clearCount_mark (w := directorySector) (by rw [hbits₁, hbits₀]; decide)
    (by rw [hset₁, if_neg (by decide), hclear₀ 1 (by decide)]) hbits₂ hset₂
  have hroot : ∀ x < numSectors, (b₂.bit x = true ↔ (x : Int) ∈ [(0 : Int), 1]) := by
    intro x hx
    rw [hset₂, hset₁, hclear₀ x hx]
    by_cases h0 : x = 0 <;> by_cases h1 : x = 1 <;> simp [h0, h1]
  have hround : divRoundUp (freeMapFileSize : ℕ) sectorSize = 1 := by decide
  have hround' : divRoundUp (directoryFileSize : ℕ) sectorSize = 2 := by decide
  simp only [numSectors, sectorsPerTrack, numTracks] at hcount₀
  obtain ⟨mapHdr, b₃, hrun₃, hshaped₃, hbytes₃, hnd₃, hfree₃, hbits₃, hset₃, hcount₃⟩ :=
    FileHeader.allocate_ok (FileHeader.ofImage (junk 1)) b₂ (freeMapFileSize : ℕ) (by decide) (by decide)
      (by rw [hround]; omega)
  obtain ⟨dirHdr, b₄, hrun₄, hshaped₄, hbytes₄, hnd₄, hfree₄, hbits₄, hset₄, -⟩ :=
    FileHeader.allocate_ok (FileHeader.ofImage (junk 2)) b₃ (directoryFileSize : ℕ) (by decide) (by decide)
      (by rw [hround']; omega)
  have hrange₃ : ∀ x ∈ mapHdr.sectors, 0 ≤ x ∧ x < numSectors := fun x hx =>
    ⟨(hfree₃ x hx).1, by have := (hfree₃ x hx).2.1; omega⟩
  have hrange₄ : ∀ x ∈ dirHdr.sectors, 0 ≤ x ∧ x < numSectors := fun x hx =>
    ⟨(hfree₄ x hx).1, by have := (hfree₄ x hx).2.1; omega⟩
  refine ⟨b₄, mapHdr, dirHdr, ?_, ⟨by omega, hshaped₃, hshaped₄, hbytes₃, hbytes₄, ?_, ?_, ?_⟩⟩
  · simp only [FileSystem.formatHeaders, hrun₀, ok_bind, hrun₁, hrun₂, hrun₃,
      assertThat, if_true, hrun₄, pure_eq_ok]
  · refine List.nodup_append.mpr ⟨List.nodup_append.mpr ⟨by decide, hnd₃, ?_⟩, hnd₄, ?_⟩
    · rintro x hx y hy rfl
      obtain ⟨hx0, hlt⟩ := hrange₃ x hy
      have hoff := (hfree₃ x hy).2.2
      have hon := (hroot x.toNat (by omega)).mpr (by rw [Int.toNat_of_nonneg hx0]; exact hx)
      rw [hoff] at hon
      cases hon
    · rintro x hx y hy rfl
      obtain ⟨hx0, hlt⟩ := hrange₄ x hy
      have hoff := (hfree₄ x hy).2.2
      have hon : b₃.bit x.toNat = true := by
        rw [hset₃, hroot x.toNat (by omega), Int.toNat_of_nonneg hx0]
        exact List.mem_append.mp hx
      rw [hoff] at hon
      cases hon
  · intro x hx
    rcases List.mem_append.mp hx with hx | hx
    · rcases List.mem_append.mp hx with hx | hx
      · simp only [List.mem_cons, List.not_mem_nil, or_false] at hx
        simp only [numSectors, sectorsPerTrack, numTracks]
        omega
      · exact hrange₃ x hx
    · exact hrange₄ x hx
  · intro x hx
    rw [hset₄, hset₃, hroot x hx, List.mem_append, List.mem_append]

section Planned
variable {mapHdr dirHdr : FileHeader}

theorem Planned.map_range (hp : Planned b mapHdr dirHdr) : ∀ x ∈ mapHdr.sectors, 0 ≤ x ∧ x < numSectors :=
  fun x hx => hp.inRange x (by simp [hx])

theorem Planned.dir_range (hp : Planned b mapHdr dirHdr) : ∀ x ∈ dirHdr.sectors, 0 ≤ x ∧ x < numSectors :=
  fun x hx => hp.inRange x (by simp [hx])

theorem Planned.map_wellFormed (hp : Planned b mapHdr dirHdr) : mapHdr.WellFormed :=
  hp.mapShaped.wellFormed (List.nodup_append.mp (List.nodup_append.mp hp.nodup).1).2.1 hp.map_range

theorem Planned.dir_wellFormed (hp : Planned b mapHdr dirHdr) : dirHdr.WellFormed :=
  hp.dirShaped.wellFormed (List.nodup_append.mp hp.nodup).2.1 hp.dir_range

theorem Planned.root_notMem (hp : Planned b mapHdr dirHdr) {x : Int} (hx : x = 0 ∨ x = 1) :
    x ∉ mapHdr.sectors ∧ x ∉ dirHdr.sectors := by
  have hx' : x ∈ [(0 : Int), 1] := by simpa using hx
  constructor
  · intro hm
    exact (List.nodup_append.mp (List.nodup_append.mp hp.nodup).1).2.2 x hx' x hm rfl
  · intro hm
    exact (List.nodup_append.mp hp.nodup).2.2 x (List.mem_append_left _ hx') x hm rfl

theorem Planned.map_dir_disjoint (hp : Planned b mapHdr dirHdr) {x : Int} (hx : x ∈ mapHdr.sectors) :
    x ∉ dirHdr.sectors :=
  fun hm => (List.nodup_append.mp hp.nodup).2.2 x (List.mem_append_right _ hx) x hm rfl

/-- The plan as it is read back from the two header sectors. -/
theorem Planned.stored (hp : Planned b mapHdr dirHdr) (m m' : Image) :
    Planned b (FileHeader.ofImage (copy m 0 mapHdr.image sectorSize))
      (FileHeader.ofImage (copy m' 0 dirHdr.image sectorSize)) := by
  obtain ⟨hbytes, hsec, hshaped⟩ := FileHeader.ofImage_image hp.mapShaped hp.map_range m
  obtain ⟨hbytes', hsec', hshaped'⟩ := FileHeader.ofImage_image hp.dirShaped hp.dir_range m'
  refine ⟨hp.numBits, hshaped, hshaped', hbytes.trans hp.mapBytes, hbytes'.trans hp.dirBytes, ?_, ?_, ?_⟩
  · rw [hsec, hsec']
    exact hp.nodup
  · rw [hsec, hsec']
    exact hp.inRange
  · rw [hsec, hsec']
    exact hp.bits

/-- A disk that holds a plan and an empty directory is in order. -/
theorem Planned.diskOk (hp : Planned b (mapHeader disk) (dirHeader disk))
    (hstored : ∀ x < numSectors, BitMap.storedBit (mapHeader disk) disk x = b.bit x)
    (hunused : ∀ i < numDirEntries, (entryAt disk i).inUse = false) : DiskOk disk := by
  have howned : Ledger.owned (systemSectors disk) numDirEntries (ownSectors disk) = systemSectors disk := by
    rw [Ledger.owned_congr _ (fun i hi => ownSectors_of_unused (hunused i hi))]
    simp [Ledger.owned]
  refine ⟨hp.mapShaped, hp.dirShaped, hp.mapBytes, hp.dirBytes, ⟨by rw [howned]; exact hp.nodup, fun x => ?_⟩,
    ?_, ?_⟩
  · rw [howned]
    constructor
    · rintro ⟨h0, hlt, hon⟩
      rw [hstored _ (by omega), hp.bits _ (by omega), Int.toNat_of_nonneg h0] at hon
      exact hon
    · intro hx
      obtain ⟨h0, hlt⟩ := hp.inRange x hx
      refine ⟨h0, hlt, ?_⟩
      rw [hstored _ (by omega), hp.bits _ (by omega), Int.toNat_of_nonneg h0]
      exact hx
  · intro i hi hu
    rw [hunused i hi] at hu
    cases hu
  · intro i hi j _ hu
    rw [hunused i hi] at hu
    cases hu

/-- The first versions of the two system files are written through the headers on the disk. -/
theorem Planned.writeFiles (hp : Planned b (mapHeader disk) (dirHeader disk)) (junk : ℕ → Image) :
    ∃ disk₁ disk₂, b.writeBack disk ⟨mapHeader disk, 0⟩ (junk 4) = .ok disk₁ ∧
      (Directory.new (junk 3) numDirEntries).writeBack disk₁ ⟨dirHeader disk, 0⟩ (junk 5) = .ok disk₂ ∧
      DiskOk disk₂ ∧ (∀ i < numDirEntries, (entryAt disk₂ i).inUse = false) ∧
      mapHeader disk₂ = mapHeader disk ∧ dirHeader disk₂ = dirHeader disk := by
  obtain ⟨disk₁, hrun₁, ha₁, hstored⟩ := writeFreeMap_spec hp.map_wellFormed hp.mapBytes
    (show (⟨mapHeader disk, 0⟩ : OpenFile).hdr = mapHeader disk from rfl) b (junk 4) hp.numBits disk
  obtain ⟨disk₂, hrun₂, ha₂, hentry⟩ := writeDirectory_spec hp.dir_wellFormed hp.dirBytes
    (show (⟨dirHeader disk, 0⟩ : OpenFile).hdr = dirHeader disk from rfl)
    (Directory.new (junk 3) numDirEntries) (junk 5) rfl
    (fun i _ => ofImage_sector_bounds (junk 3) i) disk₁
  have hmap : mapHeader disk₂ = mapHeader disk := by
    unfold mapHeader
    rw [ha₂ _ (hp.root_notMem (Or.inl rfl)).2, ha₁ _ (hp.root_notMem (Or.inl rfl)).1]
  have hdir : dirHeader disk₂ = dirHeader disk := by
    unfold dirHeader
    rw [ha₂ _ (hp.root_notMem (Or.inr rfl)).2, ha₁ _ (hp.root_notMem (Or.inr rfl)).1]
  have hunused : ∀ i < numDirEntries, (entryAt disk₂ i).inUse = false := by
    intro i hi
    unfold entryAt
    rw [hdir, (hentry i hi).inUse]
    rfl
  refine ⟨disk₁, disk₂, hrun₁, hrun₂, ?_, hunused, hmap, hdir⟩
  refine Planned.diskOk (b := b) (by rw [hmap, hdir]; exact hp) (fun x hx => ?_) hunused
  rw [hmap, ← hstored x hx]
  exact storedBit_congr hp.map_wellFormed hp.mapBytes ha₂ (fun _ hz => hp.map_dir_disjoint hz) hx

end Planned

/-- Formatting returns, on any disk, with the two files open on a disk in order that has no other file. -/
theorem format_spec (junk : ℕ → Image) (disk : Disk) :
    ∃ fs disk', FileSystem.format junk disk = .ok (fs, disk') ∧ DiskOk disk' ∧ Mounted fs disk' ∧
      ∀ i < numDirEntries, (entryAt disk' i).inUse = false := by
  obtain ⟨b, mapHdr, dirHdr, hheaders, hp⟩ := formatHeaders_spec junk
  obtain ⟨disk₁, hw₁, hat₁⟩ : ∃ disk₁, writeSector disk freeMapSector mapHdr.image = .ok disk₁ ∧
      disk₁ = Function.update disk freeMapSector (copy (disk freeMapSector) 0 mapHdr.image sectorSize) :=
    ⟨_, writeSector_eq_ok (by decide) _, rfl⟩
  obtain ⟨disk₂, hw₂, hat₂⟩ : ∃ disk₂, writeSector disk₁ directorySector dirHdr.image = .ok disk₂ ∧
      disk₂ = Function.update disk₁ directorySector (copy (disk₁ directorySector) 0 dirHdr.image sectorSize) :=
    ⟨_, writeSector_eq_ok (by decide) _, rfl⟩
  have hmap : mapHeader disk₂ = FileHeader.ofImage (copy (disk freeMapSector) 0 mapHdr.image sectorSize) := by
    unfold mapHeader
    rw [hat₂, Function.update_of_ne (by decide), hat₁, Function.update_self]
  have hdir : dirHeader disk₂ = FileHeader.ofImage (copy (disk₁ directorySector) 0 dirHdr.image sectorSize) := by
    unfold dirHeader
    rw [hat₂, Function.update_self]
  have hp' : Planned b (mapHeader disk₂) (dirHeader disk₂) := by
    rw [hmap, hdir]
    exact hp.stored _ _
  obtain ⟨disk₃, disk₄, hrun₃, hrun₄, ok, hunused, hm, hd⟩ := hp'.writeFiles junk
  have ho : OpenFile.openAt disk₂ freeMapSector = .ok ⟨mapHeader disk₂, 0⟩ := openAt_eq (by decide) (by decide)
  have ho' : OpenFile.openAt disk₂ directorySector = .ok ⟨dirHeader disk₂, 0⟩ :=
    openAt_eq (by decide) (by decide)
  refine ⟨⟨⟨mapHeader disk₂, 0⟩, ⟨dirHeader disk₂, 0⟩⟩, disk₄, ?_, ok, ⟨hm.symm, hd.symm⟩, hunused⟩
  simp only [FileSystem.format, hheaders, FileHeader.writeBack, ok_bind, hw₁, hw₂, ho, ho', hrun₃, hrun₄,
    pure_eq_ok]

/-! ## Runs -/

/-- A handle is open on the file of some entry in use. -/
def HandleOk (disk : Disk) (hd : Handle) : Prop :=
  ∃ i < numDirEntries, (entryAt disk i).inUse = true ∧ (entryAt disk i).sector = hd.sector ∧
    hd.file.hdr = headerOf disk i

/-- The descriptor that a call on an open file goes through. -/
def FsOp.through : FsOp → Option ℕ
  | .read fd _ => some fd
  | .write fd _ _ => some fd
  | .readAt fd _ _ => some fd
  | .writeAt fd _ _ _ => some fd
  | .seek fd _ => some fd
  | _ => none

/-- The descriptor that a call writes through. -/
def FsOp.written : FsOp → Option ℕ
  | .write fd _ _ => some fd
  | .writeAt fd _ _ _ => some fd
  | _ => none

namespace FsState

structure Inv (s : FsState) : Prop where
  ok : DiskOk s.disk
  mounted : Mounted s.fs s.disk
  handles : ∀ fd hd, s.handles fd = some hd → HandleOk s.disk hd

variable {s s' : FsState}

/-- A call that keeps the files of the remaining handles keeps the invariant. -/
theorem Inv.preserves (hinv : Inv s) {disk' : Disk} {keep : ℕ → Prop} (hp : Preserves s.disk disk' keep)
    {handles' : ℕ → Option Handle} (hh : ∀ fd hd, handles' fd = some hd → HandleOk s.disk hd ∧
      ∀ i, (entryAt s.disk i).sector = hd.sector → keep i) :
    Inv { s with disk := disk', handles := handles' } where
  ok := hp.ok
  mounted := ⟨hinv.mounted.map.trans hp.mapHeader.symm, hinv.mounted.dir.trans hp.dirHeader.symm⟩
  handles fd hd hfd := by
    obtain ⟨⟨i, hi, hu, hsec, hhdr⟩, hkeep⟩ := hh fd hd hfd
    have hk := hp.kept i hi hu (hkeep i hsec)
    exact ⟨i, hi, by rw [hk.entry.inUse, hu], by rw [hk.entry.sector, hsec], by rw [hk.headerOf_eq hu, hhdr]⟩

/-- A call through a descriptor that writes nothing outside its file. -/
theorem Inv.onFile (hinv : Inv s) {fd : ℕ} {op : FsOp} {call : OpenFile → Call (Disk × OpenFile)}
    (hcall : ∀ f disk' f', f.hdr.WellFormed → call f = .ok (disk', f') → f'.hdr = f.hdr ∧
      AgreeOff f.hdr.sectors s.disk disk' ∧ (op.written ≠ some fd → disk' = s.disk))
    (hrun : s.onFile fd call = .ok s') : Inv s' := by
  unfold FsState.onFile at hrun
  cases hfd : s.handles fd with
  | none =>
    rw [hfd] at hrun
    cases hrun
    exact hinv
  | some hd =>
    rw [hfd] at hrun
    simp only [bind_eq_ok] at hrun
    obtain ⟨⟨disk', f'⟩, hf, hs⟩ := hrun
    obtain ⟨i, hi, hu, hsec, hhdr⟩ := hinv.handles fd hd hfd
    have wf := hinv.ok.file_wellFormed hi hu
    rw [← hhdr] at wf
    obtain ⟨hsame, hframe, -⟩ := hcall hd.file disk' f' wf hf
    rw [hhdr] at hframe
    cases hs
    refine hinv.preserves (hinv.ok.write hi hu hframe) fun fd' hd' hfd' => ⟨?_, fun _ _ => trivial⟩
    by_cases h : fd' = fd
    · subst h
      rw [Function.update_self] at hfd'
      cases hfd'
      exact ⟨i, hi, hu, hsec, hsame.trans hhdr⟩
    · rw [Function.update_of_ne h] at hfd'
      exact hinv.handles fd' hd' hfd'

/-- The calls by name and `Close`, and those that go through a descriptor and write nothing outside its file. -/
theorem step_cases (s : FsState) (junk : ℕ → Image) (op : FsOp) :
    (∃ name size, op = .create name size) ∨ (∃ name fd, op = .openFile name fd) ∨ (∃ name, op = .remove name) ∨
    (∃ fd, op = .close fd) ∨ ∃ fd call, op.through = some fd ∧ s.step junk op = s.onFile fd call ∧
      ∀ f disk' f', f.hdr.WellFormed → call f = .ok (disk', f') → f'.hdr = f.hdr ∧
        AgreeOff f.hdr.sectors s.disk disk' ∧ (op.written ≠ some fd → disk' = s.disk) := by
  cases op with
  | create name size => exact Or.inl ⟨name, size, rfl⟩
  | openFile name fd => exact Or.inr (Or.inl ⟨name, fd, rfl⟩)
  | remove name => exact Or.inr (Or.inr (Or.inl ⟨name, rfl⟩))
  | close fd => exact Or.inr (Or.inr (Or.inr (Or.inl ⟨fd, rfl⟩)))
  | read fd n =>
    refine Or.inr (Or.inr (Or.inr (Or.inr ⟨fd, ?readCall, rfl, ?readRun, ?readFrame⟩)))
    case readRun =>
      unfold FsState.step
      exact rfl
    case readFrame =>
      intro f disk' f' _ hf
      simp only [OpenFile.read, bind_eq_ok] at hf
      obtain ⟨_, ⟨_, -, h1⟩, h2⟩ := hf
      cases h1
      cases h2
      exact ⟨rfl, fun _ _ => rfl, fun _ => rfl⟩
  | write fd src n =>
    refine Or.inr (Or.inr (Or.inr (Or.inr ⟨fd, ?writeCall, rfl, ?writeRun, ?writeFrame⟩)))
    case writeRun =>
      unfold FsState.step
      exact rfl
    case writeFrame =>
      intro f disk' f' wf hf
      simp only [OpenFile.write, bind_eq_ok] at hf
      obtain ⟨_, ⟨⟨k, d⟩, hrun, h1⟩, h2⟩ := hf
      cases h1
      cases h2
      exact ⟨rfl, AgreeOff.of_frame wf fun t ht => writeAt_frame wf hrun ht, fun hne => absurd rfl hne⟩
  | readAt fd n p =>
    refine Or.inr (Or.inr (Or.inr (Or.inr ⟨fd, ?readAtCall, rfl, ?readAtRun, ?readAtFrame⟩)))
    case readAtRun =>
      unfold FsState.step
      exact rfl
    case readAtFrame =>
      intro f disk' f' _ hf
      obtain ⟨_, -, h1⟩ := bind_eq_ok.mp hf
      cases h1
      exact ⟨rfl, fun _ _ => rfl, fun _ => rfl⟩
  | writeAt fd src n p =>
    refine Or.inr (Or.inr (Or.inr (Or.inr ⟨fd, ?writeAtCall, rfl, ?writeAtRun, ?writeAtFrame⟩)))
    case writeAtRun =>
      unfold FsState.step
      exact rfl
    case writeAtFrame =>
      intro f disk' f' wf hf
      obtain ⟨⟨k, d⟩, hrun, h1⟩ := bind_eq_ok.mp hf
      cases h1
      exact ⟨rfl, AgreeOff.of_frame wf fun t ht => writeAt_frame wf hrun ht, fun hne => absurd rfl hne⟩
  | seek fd p =>
    refine Or.inr (Or.inr (Or.inr (Or.inr ⟨fd, ?seekCall, rfl, ?seekRun, ?seekFrame⟩)))
    case seekRun =>
      unfold FsState.step
      exact rfl
    case seekFrame =>
      intro f disk' f' _ hf
      cases hf
      exact ⟨rfl, fun _ _ => rfl, fun _ => rfl⟩

theorem Inv.setHandle (hinv : Inv s) (fd : ℕ) {handle : Option Handle}
    (hh : ∀ hd, handle = some hd → HandleOk s.disk hd) :
    Inv { s with handles := Function.update s.handles fd handle } := by
  refine ⟨hinv.ok, hinv.mounted, fun fd' hd hfd' => ?_⟩
  dsimp only at hfd'
  by_cases h : fd' = fd
  · rw [h, Function.update_self] at hfd'
    exact hh hd hfd'
  · rw [Function.update_of_ne h] at hfd'
    exact hinv.handles fd' hd hfd'

theorem Inv.step (hinv : Inv s) {call : (ℕ → Image) × FsOp} (ha : Allowed s call)
    (hs : s.step call.1 call.2 = .ok s') : Inv s' := by
  obtain ⟨junk, op⟩ := call
  rcases step_cases s junk op with
    ⟨name, size, rfl⟩ | ⟨name, fd, rfl⟩ | ⟨name, rfl⟩ | ⟨fd, rfl⟩ | ⟨fd, call, -, hcall, hframe⟩
  · obtain ⟨h0, hmax⟩ := ha name size rfl
    obtain ⟨r, disk', hrun, hp⟩ := create_spec hinv.ok hinv.mounted junk name h0 hmax
    simp only [FsState.step, hrun, ok_bind, pure_eq_ok] at hs
    cases hs
    exact hinv.preserves hp fun fd hd hfd => ⟨hinv.handles fd hd hfd, fun _ _ => trivial⟩
  · rcases openFile_spec hinv.ok.dirOk hinv.mounted.dir junk name with
      ⟨hlook, hopen, -⟩ | ⟨i, hfile, hlook, hopen⟩
    · simp only [FsState.step, hlook, hopen, ok_bind, pure_eq_ok] at hs
      cases hs
      exact hinv.setHandle fd (fun hd hhd => nomatch hhd)
    · simp only [FsState.step, hlook, hopen, ok_bind, pure_eq_ok] at hs
      cases hs
      refine hinv.setHandle fd fun hd hhd => ?_
      cases hhd
      exact ⟨i, hfile.lt, hfile.inUse, rfl, rfl⟩
  · obtain ⟨sector, r, disk', hlook, hrun, hp⟩ := remove_spec hinv.ok hinv.mounted junk name
    simp only [FsState.step, hlook, hrun, ok_bind, pure_eq_ok] at hs
    cases hs
    refine hinv.preserves hp fun fd hd hfd => ?_
    obtain ⟨hfd', hne⟩ := Option.filter_eq_some_iff.mp hfd
    simp only [ne_eq, decide_not, Bool.not_eq_true', decide_eq_false_iff_not] at hne
    exact ⟨hinv.handles fd hd hfd', fun i hi => by rw [hi]; exact hne⟩
  · cases hs
    exact hinv.setHandle fd (fun hd hhd => nomatch hhd)
  · exact hinv.onFile hframe (hcall.symm.trans hs)

theorem Formatted.inv (h : Formatted s) : Inv s := by
  obtain ⟨junk, disk, hrun, hhandles⟩ := h
  obtain ⟨fs, disk', hrun', ok, hm, -⟩ := format_spec junk disk
  rw [hrun'] at hrun
  obtain ⟨rfl, rfl⟩ : fs = s.fs ∧ disk' = s.disk := by
    injection hrun with hpair
    exact ⟨congrArg Prod.fst hpair, congrArg Prod.snd hpair⟩
  exact ⟨ok, hm, fun fd hd hfd => by rw [hhandles] at hfd; cases hfd⟩

theorem Reached.inv (h : Reached s) : Inv s :=
  Reachable.invariant Inv (fun _ hi => hi.inv) (fun _ _ _ hinv ha hs => hinv.step ha hs) h

end FsState

/-- The free map marks the sectors of the system files and of the files in the directory, each of
them once, and the names in the directory are different. -/
structure Consistent (disk : Disk) : Prop where
  freeMap : ∀ x, marked disk x ↔ x ∈ Ledger.owned (systemSectors disk) numDirEntries (ownSectors disk)
  distinct : (Ledger.owned (systemSectors disk) numDirEntries (ownSectors disk)).Nodup
  inRange : ∀ x ∈ Ledger.owned (systemSectors disk) numDirEntries (ownSectors disk), 0 ≤ x ∧ x < numSectors
  names : ∀ i < numDirEntries, ∀ j < numDirEntries, i ≠ j → (entryAt disk i).inUse = true →
    (entryAt disk j).inUse = true → strncmpEq fileNameMaxLen (entryAt disk i).name (entryAt disk j).name = false

theorem DiskOk.consistent (ok : DiskOk disk) : Consistent disk where
  freeMap := ok.exact.marked_iff
  distinct := ok.exact.nodup
  inRange _ hx := ok.owned_range hx
  names i hi j hj hne hui huj := by
    rw [Bool.eq_false_iff]
    intro heq
    exact hne (ok.names i hi j hj hui huj ((strncmpEq_iff _ _ _).mp heq))

/-- Formatting returns on any disk; from there every reached disk is consistent, and no call of the
file system fails an assertion on it. -/
theorem fileSystem_consistent :
    (∀ junk disk, ∃ r, FileSystem.format junk disk = .ok r) ∧
    ∀ s : FsState, s.Reached → Consistent s.disk ∧
      (∀ junk name, ∃ r, s.fs.remove junk s.disk name = .ok r) ∧
      (∀ junk name, ∃ r, s.fs.openFile junk s.disk name = .ok r) ∧
      ∀ junk name (size : Int), 0 ≤ size → size ≤ maxFileSize →
        ∃ r, s.fs.create junk s.disk name size = .ok r := by
  refine ⟨fun junk disk => ?_, fun s hs => ?_⟩
  · obtain ⟨fs, disk', hrun, -⟩ := format_spec junk disk
    exact ⟨_, hrun⟩
  · have hinv := FsState.Reached.inv hs
    refine ⟨hinv.ok.consistent, fun junk name => ?_, fun junk name => ?_, fun junk name size h0 hmax => ?_⟩
    · obtain ⟨_, r, disk', -, hrun, -⟩ := remove_spec hinv.ok hinv.mounted junk name
      exact ⟨_, hrun⟩
    · rcases openFile_spec hinv.ok.dirOk hinv.mounted.dir junk name with ⟨-, hrun, -⟩ | ⟨i, -, -, hrun⟩ <;>
        exact ⟨_, hrun⟩
    · obtain ⟨r, disk', hrun, -⟩ := create_spec hinv.ok hinv.mounted junk name h0 hmax
      exact ⟨_, hrun⟩

/-- A disk is formatted, and a file is created on it. -/
theorem fileSystem_consistent_formatted :
    ∃ s s' : FsState, s.Reached ∧ s.step (fun _ _ => 0) (.create (fun _ => 65) 300) = .ok s' ∧ s'.Reached ∧
      Consistent s'.disk := by
  obtain ⟨⟨fs, disk⟩, hrun⟩ := fileSystem_consistent.1 (fun _ _ => 0) (fun _ _ => 0)
  have hreached : FsState.Reached ⟨fs, disk, fun _ => none⟩ := Reachable.start ⟨_, _, hrun, rfl⟩
  obtain ⟨-, -, -, hcreate⟩ := fileSystem_consistent.2 _ hreached
  obtain ⟨⟨r, disk'⟩, hcreated⟩ := hcreate (fun _ _ => 0) (fun _ => 65) 300 (by decide) (by decide)
  have hstep : FsState.step ⟨fs, disk, fun _ => none⟩ (fun _ _ => 0) (.create (fun _ => 65) 300) =
      .ok ⟨fs, disk', fun _ => none⟩ := by
    simp only [FsState.step, hcreated, ok_bind, pure_eq_ok]
  have hreached' : FsState.Reached ⟨fs, disk', fun _ => none⟩ := by
    refine hreached.next (l := (fun _ _ => 0, .create (fun _ => 65) 300)) ?_ hstep
    rintro name size hop
    cases hop
    exact ⟨by decide, by decide⟩
  exact ⟨_, _, hreached, hstep, hreached', (fileSystem_consistent.2 _ hreached').1⟩

end Nachos
