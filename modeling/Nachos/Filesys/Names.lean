import Nachos.Filesys.FileSysRun
import Mathlib.Algebra.Order.BigOperators.Group.List

/-! # File names as keys (`Directory::FindIndex`, `Directory::Add`, `FileSystem::Create`, `Open`, `Remove`)

The directory keeps the first nine bytes of a name and compares no more than these. Two names that differ there
stand for different files: what is done under one of them leaves the other alone. Two names that do not are one
key. -/
set_option autoImplicit false

namespace Nachos
open Buffer Execution

variable {other : Image} {xs : List Int} {junk : ℕ → Image}

variable {fs : FileSystem} {disk disk' : Disk} {a b name : Image}

/-- The name is opened as before, and the file has the same bytes. -/
structure Unaffected (fs : FileSystem) (disk disk' : Disk) (name : Image) : Prop where
  opens : ∀ junk junk', fs.openFile junk' disk' name = fs.openFile junk disk name
  contents : ∀ junk file, fs.openFile junk disk name = .ok (some file) →
    file.hdr.contents disk' = file.hdr.contents disk

/-- Nothing that is done to file `a` is noticed in file `b`, on any disk in order. -/
def Independent (a b : Image) : Prop :=
  ∀ fs disk, DiskOk disk → Mounted fs disk →
    (∀ junk size r disk', fs.create junk disk a size = .ok (r, disk') → Unaffected fs disk disk' b) ∧
    (∀ junk r disk', fs.remove junk disk a = .ok (r, disk') → Unaffected fs disk disk' b) ∧
    ∀ junk junk' file src n p k disk', fs.openFile junk disk a = .ok (some file) →
      writeAt disk file.hdr junk' src n p = .ok (k, disk') → Unaffected fs disk disk' b

/-! ## Files that keep their entry and their sectors -/

theorem DiskOk.contents_congr (ok : DiskOk disk) {j : ℕ} (hj : j < numDirEntries) (hu : (entryAt disk j).inUse = true)
    (ha : AgreeOff xs disk disk') (hxs : ∀ x ∈ ownSectors disk j, x ∉ xs) :
    (headerOf disk j).contents disk' = (headerOf disk j).contents disk := by
  unfold FileHeader.contents
  refine List.map_congr_left fun q hq => byteAt_congr (ok.file_wellFormed hj hu) ha
    (fun x hx => hxs x (data_mem_ownSectors hu hx)) ?_
  have hlt := List.mem_range.mp hq
  omega

theorem DiskOk.headerOf_congr (ok : DiskOk disk) {j : ℕ} (hj : j < numDirEntries) (hu : (entryAt disk j).inUse = true)
    (hentry : (entryAt disk' j).Same (entryAt disk j)) (ha : AgreeOff xs disk disk')
    (hx : (entryAt disk j).sector ∉ xs) : headerOf disk' j = headerOf disk j := by
  unfold headerOf
  rw [hentry.sector, ha]
  rwa [Int.toNat_of_nonneg (ok.sector_range hj hu).1]

/-- Two disks with the same entry, and the same header, under a name. -/
theorem openFile_congr (ok : DirOk disk) (ok' : DirOk disk') (hd : fs.directoryFile.hdr = dirHeader disk)
    (hdir : dirHeader disk' = dirHeader disk) (hfile : ∀ j, FileAt disk' name j ↔ FileAt disk name j)
    (hheader : ∀ j, FileAt disk name j → headerOf disk' j = headerOf disk j) (junk junk' : ℕ → Image) :
    fs.openFile junk' disk' name = fs.openFile junk disk name := by
  rcases openFile_spec ok hd junk name with ⟨-, hopen, hnone⟩ | ⟨i, hi, -, hopen⟩
  · rcases openFile_spec ok' (hd.trans hdir.symm) junk' name with ⟨-, hopen', -⟩ | ⟨j, hj, -, -⟩
    · rw [hopen, hopen']
    · exact absurd ((hfile j).mp hj) (hnone j)
  · rcases openFile_spec ok' (hd.trans hdir.symm) junk' name with ⟨-, -, hnone⟩ | ⟨j, hj, -, hopen'⟩
    · exact absurd ((hfile i).mpr hi) (hnone i)
    · have hj := (hfile j).mp hj
      obtain rfl := ok.names i hi.lt j hj.lt hi.inUse hj.inUse (hi.key.trans hj.key.symm)
      rw [hopen, hopen', hheader i hi]

theorem unaffected_of_frame (ok : DiskOk disk) (hm : Mounted fs disk) (ok' : DirOk disk')
    (hdir : dirHeader disk' = dirHeader disk) (ha : AgreeOff xs disk disk')
    (hfile : ∀ j, FileAt disk' name j ↔ FileAt disk name j)
    (hentry : ∀ j, FileAt disk name j → (entryAt disk' j).Same (entryAt disk j))
    (hxs : ∀ j, FileAt disk name j → ∀ x ∈ ownSectors disk j, x ∉ xs) : Unaffected fs disk disk' name where
  opens junk junk' := openFile_congr ok.dirOk ok' hm.dir hdir hfile (fun j hj => ok.headerOf_congr hj.lt hj.inUse
    (hentry j hj) ha (hxs j hj _ (by rw [ownSectors_of_inUse hj.inUse]; exact List.mem_cons_self))) junk junk'
  contents junk file hopen := by
    rcases openFile_spec ok.dirOk hm.dir junk name with ⟨-, hnone, -⟩ | ⟨i, hi, -, hsome⟩
    · rw [hnone] at hopen
      cases hopen
    · rw [hsome] at hopen
      cases hopen
      exact ok.contents_congr hi.lt hi.inUse ha (hxs i hi)

theorem Unaffected.refl (ok : DiskOk disk) (hm : Mounted fs disk) (name : Image) : Unaffected fs disk disk name := by
  have hsame : AgreeOff [] disk disk := fun _ _ => rfl
  exact unaffected_of_frame ok hm ok.dirOk rfl hsame (fun _ => Iff.rfl) (fun _ _ => ⟨rfl, rfl, fun _ _ => rfl⟩)
    (fun _ _ _ _ => List.not_mem_nil)

/-! ## Create -/

/-- A successful `Create`: entry `i` has the name and the sector `w`, which was free and has the header now. -/
structure Added (disk disk' : Disk) (name : Image) (size : Int) (i w : ℕ) : Prop where
  absent : ∀ j, ¬ FileAt disk name j
  lt : i < numDirEntries
  unused : (entryAt disk i).inUse = false
  sector : w < numSectors
  free : ¬ marked disk w
  frame : AgreeOff ([(w : Int)] ++ ((dirHeader disk).sectors ++ (mapHeader disk).sectors)) disk disk'
  dirHeader : Nachos.dirHeader disk' = Nachos.dirHeader disk
  others : ∀ j < numDirEntries, j ≠ i → (entryAt disk' j).Same (entryAt disk j)
  inUse : (entryAt disk' i).inUse = true
  entry : (entryAt disk' i).sector = w
  key : (entryAt disk' i).key = cstring fileNameMaxLen name
  numBytes : -2147483648 ≤ size → size < 2147483648 → (headerOf disk' i).numBytes = size

theorem createFile_added (ok : DiskOk disk) (hm : Mounted fs disk) (junk : ℕ → Image) {size : Int} {d : Directory}
    (hsize : d.tableSize = numDirEntries) (hsame : ∀ j < numDirEntries, (d.table j).Same (entryAt disk j))
    (hname : ∀ j, ¬ FileAt disk name j) {i : ℕ} (hi : i < numDirEntries) (hu : (entryAt disk i).inUse = false) {w : ℕ}
    (hw : w < numSectors) (hfree : ¬ marked disk w) {b c : BitMap} (hbits : b.numBits = (numSectors : ℕ))
    {g : FileHeader} (halloc : (FileHeader.ofImage (junk 4)).allocate b size = .ok (true, g, c)) :
    ∃ disk', fs.createFile junk disk (d.setEntry i ⟨true, w, strncpy fileNameMaxLen (d.table i).name name⟩) b w size =
        .ok (true, disk') ∧ Added disk disk' name size i w ∧ disk' w = copy (disk w) 0 g.image sectorSize := by
  obtain ⟨hbytes, hbits'⟩ := FileHeader.allocate_keeps halloc
  obtain ⟨disk', hrun, ha, hothers, hnew, hat, -⟩ := createFile_frame ok hm junk hsize hsame
    (strncpy fileNameMaxLen (d.table i).name name) hi hw hfree halloc (hbits'.trans hbits)
  obtain ⟨-, hdir, -⟩ := ok.system_update [(w : Int)] (fun x hx => by rwa [List.mem_singleton.mp hx]) ha
  have hentry : ∀ j, entryAt disk' j = Directory.storedEntry (dirHeader disk) disk' j := by
    intro j
    unfold entryAt
    rw [hdir]
  refine ⟨disk', hrun, ⟨hname, hi, hu, hw, hfree, ha, hdir, fun j hj hji => ?_, ?_, ?_, ?_, fun hlow hhigh => ?_⟩, hat⟩
  · rw [hentry]
    exact hothers j hj hji
  · rw [hentry, hnew.inUse]
  · rw [hentry, hnew.sector]
  · rw [hentry, hnew.key]
    exact cstring_strncpy _ _ _
  · unfold headerOf
    rw [hentry, hnew.sector]
    simp only [Int.toNat_natCast]
    rw [hat, FileHeader.numBytes_ofImage g _ (by omega) (by omega), hbytes]

theorem create_effect (ok : DiskOk disk) (hm : Mounted fs disk) {size : Int} {r : Bool}
    (hrun : fs.create junk disk name size = .ok (r, disk')) :
    (r = false ∧ disk' = disk) ∨ (r = true ∧ ∃ i w, Added disk disk' name size i w) := by
  rcases create_cases ok hm junk name size with
    ⟨hfail, -⟩ | ⟨hname, d, hsize, hsame, i, hi, hu, w, hw, hfree, -, b, hbits, hset, hcreate⟩
  · rw [hfail] at hrun
    cases hrun
    exact Or.inl ⟨rfl, rfl⟩
  · rw [hcreate] at hrun
    obtain ⟨⟨success, g, c⟩, halloc, hrest⟩ := bind_eq_ok.mp hrun
    cases success with
    | false =>
      cases hrest
      exact Or.inl ⟨rfl, rfl⟩
    | true =>
      obtain ⟨disk₁, hrun₁, hadded, -⟩ := createFile_added ok hm junk hsize hsame hname hi hu hw hfree hbits halloc
      rw [hrun₁] at hrun
      cases hrun
      exact Or.inr ⟨rfl, i, w, hadded⟩

namespace Added

variable {size : Int} {i w : ℕ} (h : Added disk disk' name size i w)
include h

theorem fileAt : FileAt disk' name i := ⟨h.lt, h.inUse, h.key⟩

theorem fileAt_iff (hne : cstring fileNameMaxLen name ≠ cstring fileNameMaxLen other) (j : ℕ) :
    FileAt disk' other j ↔ FileAt disk other j := by
  by_cases hji : j = i
  · subst hji
    constructor
    · intro hfile
      exact absurd (h.key.symm.trans hfile.key) hne
    · intro hfile
      have hu := hfile.inUse
      rw [h.unused] at hu
      cases hu
  · constructor
    · intro hfile
      have hsame := h.others j hfile.lt hji
      exact ⟨hfile.lt, hsame.inUse.symm.trans hfile.inUse, hsame.key.symm.trans hfile.key⟩
    · intro hfile
      have hsame := h.others j hfile.lt hji
      exact ⟨hfile.lt, hsame.inUse.trans hfile.inUse, hsame.key.trans hfile.key⟩

theorem dirOk (ok : DiskOk disk) : DirOk disk' where
  wellFormed := h.dirHeader ▸ ok.dir_wellFormed
  bytes := h.dirHeader ▸ ok.dirBytes
  range j hj hu := by
    by_cases hji : j = i
    · have hw := h.sector
      rw [hji, h.entry]
      omega
    · have hsame := h.others j hj hji
      rw [hsame.sector]
      exact ok.sector_range hj (hsame.inUse.symm.trans hu)
  names j hj k hk huj huk hkey := by
    have hnew : ∀ l < numDirEntries, l ≠ i → (entryAt disk' l).inUse = true →
        (entryAt disk' l).key ≠ cstring fileNameMaxLen name := by
      intro l hl hli hu hlkey
      have hsame := h.others l hl hli
      exact h.absent l ⟨hl, hsame.inUse.symm.trans hu, hsame.key.symm.trans hlkey⟩
    by_cases hji : j = i
    · by_cases hki : k = i
      · rw [hji, hki]
      · rw [hji, h.key] at hkey
        exact absurd hkey.symm (hnew k hk hki huk)
    · by_cases hki : k = i
      · rw [hki, h.key] at hkey
        exact absurd hkey (hnew j hj hji huj)
      · have hj' := h.others j hj hji
        have hk' := h.others k hk hki
        exact ok.names j hj k hk (hj'.inUse.symm.trans huj) (hk'.inUse.symm.trans huk)
          (hj'.key.symm.trans (hkey.trans hk'.key))

theorem unaffected (ok : DiskOk disk) (hm : Mounted fs disk)
    (hne : cstring fileNameMaxLen name ≠ cstring fileNameMaxLen other) : Unaffected fs disk disk' other := by
  refine unaffected_of_frame ok hm (h.dirOk ok) h.dirHeader h.frame (h.fileAt_iff hne) (fun j hj => ?_)
    (fun j hj x hx => ?_)
  · refine h.others j hj.lt ?_
    rintro rfl
    have hu := hj.inUse
    rw [h.unused] at hu
    cases hu
  · have hmarked : marked disk x := (ok.exact.marked_iff x).mpr (Ledger.mem_owned.mpr (Or.inr ⟨j, hj.lt, hx⟩))
    simp only [List.mem_append, List.mem_singleton, not_or]
    refine ⟨?_, fun hdir => ?_, fun hmap => ?_⟩
    · rintro rfl
      exact h.free hmarked
    · exact ok.system_disjoint hj.lt x (by simp [systemSectors, hdir]) hx
    · exact ok.system_disjoint hj.lt x (by simp [systemSectors, hmap]) hx

theorem openFile (ok : DiskOk disk) (hm : Mounted fs disk) (junk : ℕ → Image) :
    fs.openFile junk disk' name = .ok (some ⟨headerOf disk' i, 0⟩) := by
  rcases openFile_spec (h.dirOk ok) (hm.dir.trans h.dirHeader.symm) junk name with
    ⟨-, -, hnone⟩ | ⟨j, hj, -, hopen⟩
  · exact absurd h.fileAt (hnone i)
  · obtain rfl := (h.dirOk ok).names i h.lt j hj.lt h.inUse hj.inUse (h.key.trans hj.key.symm)
    exact hopen

end Added

/-! ## Remove and write -/

theorem remove_unaffected (ok : DiskOk disk) (hm : Mounted fs disk) {r : Bool}
    (hrun : fs.remove junk disk name = .ok (r, disk'))
    (hne : cstring fileNameMaxLen name ≠ cstring fileNameMaxLen other) : Unaffected fs disk disk' other := by
  rcases remove_cases ok hm junk name with
    ⟨-, hfail, -⟩ | ⟨i, disk₁, hfile, -, hrun₁, ha, hothers, hgone, hpres⟩
  · rw [hfail] at hrun
    cases hrun
    exact Unaffected.refl ok hm other
  · rw [hrun₁] at hrun
    cases hrun
    have hentry : ∀ j, entryAt disk' j = Directory.storedEntry (dirHeader disk) disk' j := by
      intro j
      unfold entryAt
      rw [hpres.dirHeader]
    have hsame : ∀ j < numDirEntries, j ≠ i → (entryAt disk' j).Same (entryAt disk j) := by
      intro j hj hji
      rw [hentry]
      exact hothers j hj hji
    have hother : ∀ j, FileAt disk other j → j ≠ i := by
      rintro j hj rfl
      exact hne (hfile.key.symm.trans hj.key)
    refine unaffected_of_frame ok hm hpres.ok.dirOk hpres.dirHeader ha (fun j => ⟨fun hj => ?_, fun hj => ?_⟩)
      (fun j hj => hsame j hj.lt (hother j hj)) (fun j hj x hx => ?_)
    · have hji : j ≠ i := by
        rintro rfl
        have hu := hj.inUse
        rw [hentry, hgone] at hu
        cases hu
      have hs := hsame j hj.lt hji
      exact ⟨hj.lt, hs.inUse.symm.trans hj.inUse, hs.key.symm.trans hj.key⟩
    · have hs := hsame j hj.lt (hother j hj)
      exact ⟨hj.lt, hs.inUse.trans hj.inUse, hs.key.trans hj.key⟩
    · simp only [List.mem_append, not_or]
      exact ⟨fun hdir => ok.system_disjoint hj.lt x (by simp [systemSectors, hdir]) hx,
        fun hmap => ok.system_disjoint hj.lt x (by simp [systemSectors, hmap]) hx⟩

/-- Writing to the sectors of a file: every name is opened as before. -/
theorem write_opens (ok : DiskOk disk) (hm : Mounted fs disk) {i : ℕ} (hi : i < numDirEntries)
    (hu : (entryAt disk i).inUse = true) (ha : AgreeOff (headerOf disk i).sectors disk disk') (name : Image)
    (junk junk' : ℕ → Image) : fs.openFile junk' disk' name = fs.openFile junk disk name := by
  obtain ⟨-, hdir, hentry⟩ := ok.overwrite_entries (ok.system_not_data hi hu) ha
  have hpres := ok.write hi hu ha
  refine openFile_congr ok.dirOk hpres.ok.dirOk hm.dir hdir (fun j => ⟨fun hj => ?_, fun hj => ?_⟩)
    (fun j hj => (hpres.kept j hj.lt hj.inUse trivial).headerOf_eq hj.inUse) junk junk'
  · have hs := hentry j hj.lt
    exact ⟨hj.lt, hs.inUse.symm.trans hj.inUse, hs.key.symm.trans hj.key⟩
  · have hs := hentry j hj.lt
    exact ⟨hj.lt, hs.inUse.trans hj.inUse, hs.key.trans hj.key⟩

theorem write_unaffected (ok : DiskOk disk) (hm : Mounted fs disk) {file : OpenFile}
    (hopen : fs.openFile junk disk name = .ok (some file)) {junk' src : Image} {n p k : Int}
    (hrun : writeAt disk file.hdr junk' src n p = .ok (k, disk'))
    (hne : cstring fileNameMaxLen name ≠ cstring fileNameMaxLen other) : Unaffected fs disk disk' other := by
  rcases openFile_spec ok.dirOk hm.dir junk name with ⟨-, hnone, -⟩ | ⟨i, hi, -, hsome⟩
  · rw [hnone] at hopen
    cases hopen
  · rw [hsome] at hopen
    cases hopen
    have wf := ok.file_wellFormed hi.lt hi.inUse
    have ha : AgreeOff (headerOf disk i).sectors disk disk' :=
      AgreeOff.of_frame wf fun t ht => writeAt_frame wf hrun ht
    refine ⟨write_opens ok hm hi.lt hi.inUse ha other, fun junk₁ file hfile => ?_⟩
    rcases openFile_spec ok.dirOk hm.dir junk₁ other with ⟨-, hnone, -⟩ | ⟨j, hj, -, hsome₁⟩
    · rw [hnone] at hfile
      cases hfile
    · rw [hsome₁] at hfile
      cases hfile
      have hij : i ≠ j := by
        rintro rfl
        exact hne (hi.key.symm.trans hj.key)
      exact ok.contents_congr hj.lt hj.inUse ha fun x hx hm =>
        ok.exact.slots_disjoint hi.lt hj.lt hij (data_mem_ownSectors hi.inUse hm) hx

/-! ## Room for a file -/

theorem ownSectors_length (ok : DiskOk disk) {i : ℕ} (hi : i < numDirEntries) :
    (ownSectors disk i).length ≤ numDirect + 1 := by
  unfold ownSectors
  split
  · next hu =>
    have hfits := (ok.shaped i hi hu).fits
    simp only [FileHeader.sectors, List.length_cons, List.length_map, List.length_range]
    omega
  · exact Nat.zero_le _

theorem DiskOk.owned_length (ok : DiskOk disk) :
    (Ledger.owned (systemSectors disk) numDirEntries (ownSectors disk)).length ≤ 2 + 2 * numDirect +
      numDirEntries * (numDirect + 1) := by
  have hfiles : ((List.range numDirEntries).flatMap (ownSectors disk)).length ≤ numDirEntries * (numDirect + 1) := by
    rw [List.length_flatMap]
    have hsum := List.sum_le_card_nsmul ((List.range numDirEntries).map fun i => (ownSectors disk i).length)
      (numDirect + 1) (by
        intro n hn
        obtain ⟨i, hi, rfl⟩ := List.mem_map.mp hn
        exact ownSectors_length ok (List.mem_range.mp hi))
    simpa using hsum
  have hmap := ok.mapShaped.fits
  have hdir := ok.dirShaped.fits
  simp only [Ledger.owned, systemSectors, FileHeader.sectors, List.length_append, List.length_cons, List.length_nil,
    List.length_map, List.length_range]
  omega

/-- The files that a directory has room for do not fill the disk. -/
theorem exists_free_ne (ok : DiskOk disk) (w : ℕ) : ∃ x < numSectors, x ≠ w ∧ ¬ marked disk x := by
  by_contra hall
  push Not at hall
  have hsub : (List.range numSectors).map Int.ofNat ⊆
      (w : Int) :: Ledger.owned (systemSectors disk) numDirEntries (ownSectors disk) := by
    intro x hx
    obtain ⟨k, hk, rfl⟩ := List.mem_map.mp hx
    by_cases hkw : k = w
    · rw [hkw]
      exact List.mem_cons_self
    · refine List.mem_cons_of_mem _ ?_
      rw [← ok.exact.marked_iff]
      exact hall k (List.mem_range.mp hk) hkw
  have hnodup : ((List.range numSectors).map Int.ofNat).Nodup :=
    List.nodup_range.map fun x y hxy => Int.ofNat.inj hxy
  have hlen := (List.subperm_of_subset hnodup hsub).length_le
  have howned := ok.owned_length
  simp only [List.length_map, List.length_range, List.length_cons, numSectors, sectorsPerTrack, numTracks, numDirEntries,
    numDirect, sectorSize] at hlen howned
  omega

theorem exists_free (ok : DiskOk disk) : ∃ x < numSectors, ¬ marked disk x := by
  obtain ⟨x, hx, -, hfree⟩ := exists_free_ne ok 0
  exact ⟨x, hx, hfree⟩

/-- There is no ground to refuse a new name if the directory has an entry left. -/
theorem create_not_refused (ok : DiskOk disk) (habsent : ∀ j, ¬ FileAt disk name j)
    (hroom : ∃ i < numDirEntries, (entryAt disk i).inUse = false) :
    ¬ ((∃ j, FileAt disk name j) ∨ (∀ x < numSectors, marked disk x) ∨
      ∀ j < numDirEntries, (entryAt disk j).inUse = true) := by
  rintro (⟨j, hj⟩ | hfull | hfull)
  · exact habsent j hj
  · obtain ⟨x, hx, hfree⟩ := exists_free ok
    exact hfree (hfull x hx)
  · obtain ⟨i, hi, hunused⟩ := hroom
    rw [hfull i hi] at hunused
    cases hunused

/-- `Create` of an empty file succeeds if the name is new and the directory has an entry left. -/
theorem create_succeeds (ok : DiskOk disk) (hm : Mounted fs disk) (habsent : ∀ j, ¬ FileAt disk name j)
    (hroom : ∃ i < numDirEntries, (entryAt disk i).inUse = false) (junk : ℕ → Image) :
    ∃ disk', fs.create junk disk name 0 = .ok (true, disk') := by
  rcases create_cases ok hm junk name 0 with
    ⟨-, hrefused⟩ | ⟨-, d, hsize, hsame, i, hi, -, w, hw, hfree, -, b, hbits, -, hcreate⟩
  · exact absurd hrefused (create_not_refused ok habsent hroom)
  · have hround : divRoundUp 0 sectorSize = 0 := by decide
    obtain ⟨g, c, halloc, -, -, -, -, hbits', -⟩ := FileHeader.allocate_ok (FileHeader.ofImage (junk 4)) b 0
      (by decide) (by decide) (by rw [hround]; omega)
    obtain ⟨disk', hrun, -⟩ := createFile_frame ok hm junk hsize hsame
      (strncpy fileNameMaxLen (d.table i).name name) hi hw hfree halloc (hbits'.trans hbits)
    exact ⟨disk', by rw [hcreate, hrun]⟩

/-- On a formatted disk no name is found; when a file has been created, every name with the same nine first bytes
is. -/
theorem create_found (junk : ℕ → Image) (hkey : cstring fileNameMaxLen a = cstring fileNameMaxLen b) :
    ∃ fs disk disk' file, DiskOk disk ∧ Mounted fs disk ∧ fs.create junk disk a 0 = .ok (true, disk') ∧
      fs.openFile junk disk b = .ok none ∧ fs.openFile junk disk' b = .ok (some file) := by
  obtain ⟨fs, disk, -, ok, hm, hempty⟩ := format_spec junk fun _ _ => 0
  have habsent : ∀ j, ¬ FileAt disk a j := by
    intro j hj
    have hu := hj.inUse
    rw [hempty j hj.lt] at hu
    cases hu
  obtain ⟨disk', hrun⟩ := create_succeeds ok hm habsent ⟨0, by decide, hempty 0 (by decide)⟩ junk
  rcases create_effect ok hm hrun with ⟨hr, -⟩ | ⟨-, i, w, hadded⟩
  · cases hr
  · have hfound : FileAt disk' b i := ⟨hadded.lt, hadded.inUse, hadded.key.trans hkey⟩
    rcases openFile_spec ok.dirOk hm.dir junk b with ⟨-, hnone, -⟩ | ⟨j, hj, -, -⟩
    · rcases openFile_spec (hadded.dirOk ok) (hm.dir.trans hadded.dirHeader.symm) junk b with
        ⟨-, -, habsent⟩ | ⟨j, -, -, hopen⟩
      · exact absurd hfound (habsent i)
      · exact ⟨fs, disk, disk', _, ok, hm, hrun, hnone, hopen⟩
    · have hu := hj.inUse
      rw [hempty j hj.lt] at hu
      cases hu

/-! ## A file is found until it is removed -/

/-- The state is in order, and no name is removed that the directory takes for `name`. -/
def KeepsName (name : Image) (s : FsState) (call : (ℕ → Image) × FsOp) : Prop :=
  s.Inv ∧ ∀ other, call.2 = .remove other → cstring fileNameMaxLen other ≠ cstring fileNameMaxLen name

/-- The states after a state. -/
def FsState.Follows (name : Image) (s : FsState) : FsState → Prop :=
  Reachable (fun s₁ => s₁ = s) (fun s call s' => s.step call.1 call.2 = .ok s') (KeepsName name)

/-- `Open` finds this file. -/
def FsState.Finds (s : FsState) (name : Image) (file : OpenFile) : Prop :=
  ∀ junk, s.fs.openFile junk s.disk name = .ok (some file)

/-- What `Create` has made is found until it is removed. -/
def FoundUntilRemoved (name : Image) : Prop :=
  ∀ (s : FsState) junk size disk', s.Inv → -2147483648 ≤ size → size < 2147483648 →
    s.fs.create junk s.disk name size = .ok (true, disk') →
    ∃ file, file.hdr.numBytes = size ∧
      ∀ t, FsState.Follows name { s with disk := disk' } t → t.Finds name file

section Runs
variable {s s' : FsState} {file : OpenFile}

theorem Unaffected.finds (h : Unaffected s.fs s.disk disk' name) (hs : s.Finds name file)
    (handles : ℕ → Option Handle) : FsState.Finds { s with disk := disk', handles := handles } name file := by
  intro junk
  rw [← hs junk]
  exact h.opens junk junk

/-- A call through a descriptor that writes nothing outside its file. -/
theorem FsState.Inv.onFile_finds (hinv : s.Inv) (hs : s.Finds name file) {fd : ℕ}
    {call : OpenFile → Call (Disk × OpenFile)}
    (hcall : ∀ f disk' f', f.hdr.WellFormed → call f = .ok (disk', f') → AgreeOff f.hdr.sectors s.disk disk')
    (hrun : s.onFile fd call = .ok s') : s'.Finds name file := by
  unfold FsState.onFile at hrun
  cases hfd : s.handles fd with
  | none =>
    rw [hfd] at hrun
    cases hrun
    exact hs
  | some hd =>
    rw [hfd] at hrun
    obtain ⟨⟨disk', f'⟩, hf, hrun⟩ := bind_eq_ok.mp hrun
    cases hrun
    obtain ⟨i, hi, hu, -, hhdr⟩ := hinv.handles fd hd hfd
    have ha := hcall hd.file disk' f' (hhdr ▸ hinv.ok.file_wellFormed hi hu) hf
    rw [hhdr] at ha
    intro junk
    rw [← hs junk]
    exact write_opens hinv.ok hinv.mounted hi hu ha name junk junk

theorem FsState.Finds.step (hs : s.Finds name file) {call : (ℕ → Image) × FsOp} (hkeeps : KeepsName name s call)
    (hrun : s.step call.1 call.2 = .ok s') : s'.Finds name file := by
  obtain ⟨junk, op⟩ := call
  obtain ⟨hinv, hremove⟩ := hkeeps
  have hfound : ∃ i, FileAt s.disk name i := by
    rcases openFile_spec hinv.ok.dirOk hinv.mounted.dir junk name with ⟨-, hnone, -⟩ | ⟨i, hi, -, -⟩
    · have hsome := hs junk
      rw [hnone] at hsome
      cases hsome
    · exact ⟨i, hi⟩
  rcases FsState.step_cases s junk op with
    ⟨other, size, rfl⟩ | ⟨other, fd, rfl⟩ | ⟨other, rfl⟩ | ⟨fd, rfl⟩ | ⟨fd, call, -, hcall, hframe⟩
  · obtain ⟨⟨r, disk'⟩, hcreate, hrun⟩ := bind_eq_ok.mp hrun
    cases hrun
    rcases create_effect hinv.ok hinv.mounted hcreate with ⟨-, rfl⟩ | ⟨-, i, w, hadded⟩
    · exact hs
    · obtain ⟨j, hj⟩ := hfound
      refine (hadded.unaffected hinv.ok hinv.mounted fun hkey => ?_).finds hs s.handles
      exact hadded.absent j ⟨hj.lt, hj.inUse, hj.key.trans hkey.symm⟩
  · obtain ⟨sector, -, hrun⟩ := bind_eq_ok.mp hrun
    obtain ⟨opened, -, hrun⟩ := bind_eq_ok.mp hrun
    cases hrun
    exact hs
  · obtain ⟨sector, -, hrun⟩ := bind_eq_ok.mp hrun
    obtain ⟨⟨r, disk'⟩, hgone, hrun⟩ := bind_eq_ok.mp hrun
    cases hrun
    exact (remove_unaffected hinv.ok hinv.mounted hgone (hremove other rfl)).finds hs _
  · cases hrun
    exact hs
  · exact hinv.onFile_finds hs (fun f disk' f' wf hf => (hframe f disk' f' wf hf).2.1) (hcall.symm.trans hrun)

theorem foundUntilRemoved (name : Image) : FoundUntilRemoved name := by
  intro s junk size disk' hinv hlow hhigh hrun
  rcases create_effect hinv.ok hinv.mounted hrun with ⟨hr, -⟩ | ⟨-, i, w, hadded⟩
  · cases hr
  · refine ⟨⟨headerOf disk' i, 0⟩, hadded.numBytes hlow hhigh, fun t ht => ?_⟩
    refine Reachable.invariant (fun t => t.Finds name ⟨headerOf disk' i, 0⟩) (fun s₁ hs₁ => ?_)
      (fun _ _ _ hs hkeeps hstep => FsState.Finds.step hs hkeeps hstep) ht
    subst hs₁
    exact fun junk => hadded.openFile hinv.ok hinv.mounted junk

end Runs

/-- Names are independent keys exactly if they differ in the nine bytes that the directory keeps; and a created file
is found until a name that agrees with its own in these bytes is removed. -/
theorem file_names_independent_iff (a b : Image) :
    (Independent a b ↔ cstring fileNameMaxLen a ≠ cstring fileNameMaxLen b) ∧ FoundUntilRemoved a := by
  refine ⟨⟨fun hindependent hkey => ?_, fun hne fs disk ok hm => ⟨?_, ?_, ?_⟩⟩, foundUntilRemoved a⟩
  · obtain ⟨fs, disk, disk', file, ok, hm, hrun, hnone, hsome⟩ := create_found (fun _ _ => 0) hkey
    have hopens := ((hindependent fs disk ok hm).1 _ _ _ _ hrun).opens (fun _ _ => 0) (fun _ _ => 0)
    rw [hnone, hsome] at hopens
    cases hopens
  · intro junk size r disk' hrun
    rcases create_effect ok hm hrun with ⟨-, rfl⟩ | ⟨-, i, w, hadded⟩
    · exact Unaffected.refl ok hm b
    · exact hadded.unaffected ok hm hne
  · intro junk r disk' hrun
    exact remove_unaffected ok hm hrun hne
  · intro junk junk' file src n p k disk' hopen hrun
    exact write_unaffected ok hm hopen hrun hne

/-- Nine times `a`, and one more character. -/
def longName (last : UInt8) : Image := fun o => if o < fileNameMaxLen then 97 else if o = fileNameMaxLen then last else 0

/-- The name that ends in `b` is created, and the one that ends in `c` can be opened. -/
theorem create_opens_other_name : ∃ fs disk disk' file, DiskOk disk ∧ Mounted fs disk ∧
    cstring 11 (longName 98) ≠ cstring 11 (longName 99) ∧
    fs.create (fun _ _ => 0) disk (longName 98) 0 = .ok (true, disk') ∧
    fs.openFile (fun _ _ => 0) disk (longName 99) = .ok none ∧
    fs.openFile (fun _ _ => 0) disk' (longName 99) = .ok (some file) := by
  obtain ⟨fs, disk, disk', file, ok, hm, hrun, hnone, hsome⟩ := create_found (a := longName 98) (b := longName 99)
    (fun _ _ => 0) (by decide)
  exact ⟨fs, disk, disk', file, ok, hm, by decide, hrun, hnone, hsome⟩

end Nachos
