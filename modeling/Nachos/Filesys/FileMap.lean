import Nachos.Filesys.Allocation
import Nachos.Library.SlotTable

/-! # The file system is a map from names to strings of bytes

A process sees the files of the disk by the nine first bytes of their names. Behind each of these stands a string of
bytes whose length was fixed when the file was created. `FileStore` is this view, with a name and a position for each
descriptor; it is shown by every disk in order. Each call of the file system returns what the view says and leaves a
disk that shows the view after the call, also when the machine is started again on the disk (`FileSystem(FALSE)`). -/
set_option autoImplicit false

namespace Nachos
open Buffer Execution

/-! ## The calls of a process and what they return -/

/-- `FileSystem::FileSystem(FALSE)`: open the files of the bitmap and of the directory. -/
def FileSystem.mount (disk : Disk) : Call FileSystem := do
  let freeMapFile ← OpenFile.openAt disk freeMapSector
  let directoryFile ← OpenFile.openAt disk directorySector
  return ⟨freeMapFile, directoryFile⟩

inductive FsCall where
  | op (op : FsOp)
  | length (fd : ℕ)
  | restart

inductive FsResult where
  | done
  | success (success : Bool)
  | count (n : Int)
  | bytes (data : List UInt8)

namespace FsState

/-- A call through descriptor `fd`, with what it returns. -/
def through (s : FsState) (fd : ℕ) (call : OpenFile → Call (FsResult × Disk × OpenFile)) : Call (FsResult × FsState) :=
  match s.handles fd with
  | none => .ok (.done, s)
  | some hd => do
    let (r, disk, file) ← call hd.file
    return (r, { s with disk := disk, handles := Function.update s.handles fd (some { hd with file := file }) })

/-- The calls of `step` with what they return, `Length`, and the start of the machine on a disk it has used before. -/
def perform (s : FsState) (junk : ℕ → Image) : FsCall → Call (FsResult × FsState)
  | .op (.create name initialSize) => do
    let (success, disk) ← s.fs.create junk s.disk name initialSize
    return (.success success, { s with disk := disk })
  | .op (.openFile name fd) => do
    let sector ← s.fs.lookup junk s.disk name
    let file ← s.fs.openFile junk s.disk name
    return (.success file.isSome, { s with handles := Function.update s.handles fd (file.map (Handle.mk sector)) })
  | .op (.remove name) => do
    let sector ← s.fs.lookup junk s.disk name
    let (success, disk) ← s.fs.remove junk s.disk name
    return (.success success,
      { s with disk := disk, handles := fun fd => (s.handles fd).filter (fun hd => hd.sector ≠ sector) })
  | .op (.read fd numBytes) => s.through fd fun f => do
    let (result, bytes, f) ← f.read s.disk (junk 0) numBytes
    return (.bytes ((List.range result.toNat).map bytes), s.disk, f)
  | .op (.write fd src numBytes) => s.through fd fun f => do
    let (result, disk, f) ← f.write s.disk (junk 0) src numBytes
    return (.count result, disk, f)
  | .op (.readAt fd numBytes position) => s.through fd fun f => do
    let (result, bytes) ← Nachos.readAt s.disk f.hdr (junk 0) numBytes position
    return (.bytes ((List.range result.toNat).map bytes), s.disk, f)
  | .op (.writeAt fd src numBytes position) => s.through fd fun f => do
    let (result, disk) ← Nachos.writeAt s.disk f.hdr (junk 0) src numBytes position
    return (.count result, disk, f)
  | .op (.seek fd position) => s.through fd fun f => .ok (.done, s.disk, f.seek position)
  | .op (.close fd) => .ok (.done, { s with handles := Function.update s.handles fd none })
  | .length fd => s.through fd fun f => .ok (.count f.length, s.disk, f)
  | .restart => do
    let fs ← FileSystem.mount s.disk
    return (.done, ⟨fs, s.disk, fun _ => none⟩)

end FsState

/-- A bound for positions and counts: the sum of two of them is an `int`. -/
abbrev halfRange : ℕ := 1073741824

/-- Files are created with a size a header has room for; positions are not negative, and they and the counts are below
the bound. -/
def FsCall.Legal : FsCall → Prop
  | .op (.create _ initialSize) => 0 ≤ initialSize ∧ initialSize ≤ maxFileSize
  | .op (.read _ numBytes) => numBytes < halfRange
  | .op (.write _ _ numBytes) => numBytes < halfRange
  | .op (.readAt _ numBytes position) => numBytes < halfRange ∧ 0 ≤ position ∧ position < halfRange
  | .op (.writeAt _ _ numBytes position) => numBytes < halfRange ∧ 0 ≤ position ∧ position < halfRange
  | .op (.seek _ position) => 0 ≤ position ∧ position < halfRange
  | _ => True

/-- A call with legal arguments, and what newly allocated memory holds during it. -/
structure LegalCall where
  call : FsCall
  junk : ℕ → Image
  legal : call.Legal

/-! ## The view -/

/-- The part of a name that counts. -/
abbrev nameKey (name : Image) : List UInt8 := cstring fileNameMaxLen name

structure FileStore where
  files : Finmap fun _ : List UInt8 => List UInt8
  handles : ℕ → Option (List UInt8 × ℕ)

/-- The bytes with `data` written over them from position `p` on, as far as they go. -/
def overwrite (bytes : List UInt8) (p : ℕ) (data : List UInt8) : List UInt8 :=
  bytes.take p ++ data.take (bytes.length - p) ++ bytes.drop (p + data.length)

/-- A call on a string of bytes at a position: what it returns, the bytes and the position afterwards. -/
abbrev OnBytes : Type := List UInt8 → ℕ → FsResult × List UInt8 × ℕ

namespace FileStore

/-- A call through a descriptor. -/
def Through (a : FileStore) (fd : ℕ) (f : OnBytes) (r : FsResult) (a' : FileStore) : Prop :=
  match a.handles fd with
  | none => r = .done ∧ a' = a
  | some (key, p) => ∃ bytes, a.files.lookup key = some bytes ∧ r = (f bytes p).1 ∧
      a' = ⟨a.files.insert key (f bytes p).2.1, Function.update a.handles fd (some (key, (f bytes p).2.2))⟩

/-- What the calls may return, and the view after them. The bytes of a new file are any. -/
def Answer (a : FileStore) (c : LegalCall) (r : FsResult) (a' : FileStore) : Prop :=
  match c.call with
  | .op (.create name initialSize) =>
    if nameKey name ∈ a.files ∨ numDirEntries ≤ a.files.keys.card then r = .success false ∧ a' = a
    else ∃ bytes : List UInt8, bytes.length = initialSize ∧ r = .success true ∧
      a' = { a with files := a.files.insert (nameKey name) bytes }
  | .op (.openFile name fd) => r = .success (nameKey name ∈ a.files) ∧
      a' = ⟨a.files, Function.update a.handles fd (if nameKey name ∈ a.files then some (nameKey name, 0) else none)⟩
  | .op (.remove name) => r = .success (nameKey name ∈ a.files) ∧
      a' = ⟨a.files.erase (nameKey name), fun fd => (a.handles fd).filter fun hd => hd.1 ≠ nameKey name⟩
  | .op (.read fd numBytes) => a.Through fd (fun bytes p =>
      (.bytes ((bytes.drop p).take numBytes.toNat), bytes, p + min numBytes.toNat (bytes.length - p))) r a'
  | .op (.write fd src numBytes) => a.Through fd (fun bytes p =>
      (.count (min numBytes.toNat (bytes.length - p) : ℕ), overwrite bytes p ((List.range numBytes.toNat).map src),
        p + min numBytes.toNat (bytes.length - p))) r a'
  | .op (.readAt fd numBytes position) => a.Through fd (fun bytes p =>
      (.bytes ((bytes.drop position.toNat).take numBytes.toNat), bytes, p)) r a'
  | .op (.writeAt fd src numBytes position) => a.Through fd (fun bytes p =>
      (.count (min numBytes.toNat (bytes.length - position.toNat) : ℕ),
        overwrite bytes position.toNat ((List.range numBytes.toNat).map src), p)) r a'
  | .op (.seek fd position) => a.Through fd (fun bytes _ => (.done, bytes, position.toNat)) r a'
  | .op (.close fd) => r = .done ∧ a' = { a with handles := Function.update a.handles fd none }
  | .length fd => a.Through fd (fun bytes p => (.count bytes.length, bytes, p)) r a'
  | .restart => r = .done ∧ a' = { a with handles := fun _ => none }

end FileStore

/-! ## The view of a disk -/

variable {fs : FileSystem} {disk disk' : Disk} {name : Image}

/-- What stands in entry `i` of the directory: the key of a file and its bytes. -/
def slotFile (disk : Disk) (i : ℕ) : Option (List UInt8 × List UInt8) :=
  if (entryAt disk i).inUse then some ((entryAt disk i).key, (headerOf disk i).contents disk) else none

theorem slotFile_of_inUse {i : ℕ} (hu : (entryAt disk i).inUse = true) :
    slotFile disk i = some ((entryAt disk i).key, (headerOf disk i).contents disk) := by
  unfold slotFile
  rw [if_pos hu]

theorem slotFile_of_unused {i : ℕ} (hu : (entryAt disk i).inUse = false) : slotFile disk i = none := by
  unfold slotFile
  rw [if_neg (by simp [hu])]

theorem slotFile_eq_some {i : ℕ} {key bytes : List UInt8} (h : slotFile disk i = some (key, bytes)) :
    (entryAt disk i).inUse = true ∧ (entryAt disk i).key = key ∧ (headerOf disk i).contents disk = bytes := by
  cases hu : (entryAt disk i).inUse with
  | false =>
    rw [slotFile_of_unused hu] at h
    cases h
  | true =>
    rw [slotFile_of_inUse hu] at h
    cases h
    exact ⟨rfl, rfl, rfl⟩

/-- A file whose entry and sectors have not changed. -/
theorem DiskOk.slotFile_congr (ok : DiskOk disk) {j : ℕ} (hj : j < numDirEntries)
    (hentry : (entryAt disk' j).Same (entryAt disk j)) {xs : List Int} (ha : AgreeOff xs disk disk')
    (hxs : ∀ x ∈ ownSectors disk j, x ∉ xs) : slotFile disk' j = slotFile disk j := by
  cases hu : (entryAt disk j).inUse with
  | false => rw [slotFile_of_unused hu, slotFile_of_unused (hentry.inUse.trans hu)]
  | true =>
    have hhdr : headerOf disk' j = headerOf disk j :=
      ok.headerOf_congr hj hu hentry ha (hxs _ (by rw [ownSectors_of_inUse hu]; exact List.mem_cons_self))
    rw [slotFile_of_inUse hu, slotFile_of_inUse (hentry.inUse.trans hu), hentry.key, hhdr,
      ok.contents_congr hj hu ha hxs]

/-- A handle on the file with this key, at this position. -/
structure HandleShows (disk : Disk) (hd : Handle) (place : List UInt8 × ℕ) : Prop where
  position : hd.file.seekPosition = place.2
  bound : place.2 < halfRange
  entry : ∃ i < numDirEntries, (entryAt disk i).inUse = true ∧ (entryAt disk i).sector = hd.sector ∧
    (entryAt disk i).key = place.1 ∧ hd.file.hdr = headerOf disk i

/-- The disk and the descriptors show the view. -/
structure FsState.Shows (s : FsState) (a : FileStore) : Prop where
  ok : DiskOk s.disk
  mounted : Mounted s.fs s.disk
  files : SlotTable.Holds (slotFile s.disk) numDirEntries a.files
  handles : ∀ fd, Option.Rel (HandleShows s.disk) (s.handles fd) (a.handles fd)

theorem mem_files_iff {m : Finmap fun _ : List UInt8 => List UInt8}
    (h : SlotTable.Holds (slotFile disk) numDirEntries m) : nameKey name ∈ m ↔ ∃ j, FileAt disk name j := by
  rw [h.mem_iff]
  constructor
  · rintro ⟨j, hj, bytes, hs⟩
    obtain ⟨hu, hkey, -⟩ := slotFile_eq_some hs
    exact ⟨j, hj, hu, hkey⟩
  · rintro ⟨j, hj, hu, hkey⟩
    exact ⟨j, hj, _, (slotFile_of_inUse hu).trans (by rw [hkey])⟩

theorem FileAt.slotFile_eq {i : ℕ} (h : FileAt disk name i) :
    slotFile disk i = some (nameKey name, (headerOf disk i).contents disk) :=
  (slotFile_of_inUse h.inUse).trans (by rw [h.key])

theorem Mounted.preserves (h : Mounted fs disk) {keep : ℕ → Prop} (hp : Preserves disk disk' keep) : Mounted fs disk' :=
  ⟨h.map.trans hp.mapHeader.symm, h.dir.trans hp.dirHeader.symm⟩

theorem HandleShows.preserves {hd : Handle} {place : List UInt8 × ℕ} (h : HandleShows disk hd place) {keep : ℕ → Prop}
    (hp : Preserves disk disk' keep) (hkeep : ∀ i, (entryAt disk i).sector = hd.sector → keep i) :
    HandleShows disk' hd place := by
  obtain ⟨hposition, hbound, i, hi, hu, hsector, hkey, hhdr⟩ := h
  have hk := hp.kept i hi hu (hkeep i hsector)
  exact ⟨hposition, hbound, i, hi, hk.entry.inUse.trans hu, hk.entry.sector.trans hsector, hk.entry.key.trans hkey,
    by rw [hk.headerOf_eq hu, hhdr]⟩

/-- A handle is on the file of a name if it has its sector. -/
theorem HandleShows.sector_eq_iff {hd : Handle} {place : List UInt8 × ℕ} (h : HandleShows disk hd place)
    (ok : DiskOk disk) {i : ℕ} (hfile : FileAt disk name i) :
    hd.sector = (entryAt disk i).sector ↔ place.1 = nameKey name := by
  obtain ⟨-, -, j, hj, hu, hsector, hkey, -⟩ := h
  constructor
  · intro heq
    have hij : i = j := by
      by_contra hne
      refine ok.exact.slots_disjoint hfile.lt hj hne (x := (entryAt disk i).sector) ?_ ?_
      · rw [ownSectors_of_inUse hfile.inUse]
        exact List.mem_cons_self
      · rw [ownSectors_of_inUse hu, hsector, heq]
        exact List.mem_cons_self
    rw [← hkey, ← hij, hfile.key]
  · intro heq
    have hij : j = i := ok.names j hj i hfile.lt hu hfile.inUse (hkey.trans (heq.trans hfile.key.symm))
    rw [← hsector, hij]

/-! ## Room for every file that fits in a header -/

theorem creatable_iff (ok : DiskOk disk) {m : Finmap fun _ : List UInt8 => List UInt8}
    (h : SlotTable.Holds (slotFile disk) numDirEntries m) {size : Int} (hmax : size ≤ maxFileSize) :
    Creatable disk name size ↔ ¬ (nameKey name ∈ m ∨ numDirEntries ≤ m.keys.card) := by
  have hused : ∀ i, (slotFile disk i).isSome = (entryAt disk i).inUse := by
    intro i
    unfold slotFile
    split
    · next hu => rw [hu]; rfl
    · next hu => rw [Bool.eq_false_iff.mpr hu]; rfl
  rw [not_or, mem_files_iff h, h.full_iff]
  constructor
  · rintro ⟨habsent, ⟨j, hj, hunused⟩, -⟩
    refine ⟨not_exists.mpr habsent, fun hall => ?_⟩
    have hu := hall j hj
    rw [hused, hunused] at hu
    cases hu
  · rintro ⟨habsent, hroom⟩
    refine ⟨not_exists.mp habsent, ?_, ?_⟩
    · push Not at hroom
      obtain ⟨j, hj, hnone⟩ := hroom
      exact ⟨j, hj, Bool.eq_false_iff.mpr (by rwa [hused] at hnone)⟩
    · have hfree := ok.free_room
      simp only [maxFileSize, numDirect, sectorSize] at *
      omega

/-! ## The calls by name -/

namespace FsState.Shows

variable {s : FsState} {a : FileStore}

/-- The handles of files that a call keeps. -/
theorem handles_preserved (h : s.Shows a) {keep : ℕ → Prop} (hp : Preserves s.disk disk' keep) {fd : ℕ}
    (hkeep : ∀ hd, s.handles fd = some hd → ∀ i, (entryAt s.disk i).sector = hd.sector → keep i) :
    Option.Rel (HandleShows disk') (s.handles fd) (a.handles fd) := by
  have hrel := h.handles fd
  generalize a.handles fd = place at hrel ⊢
  cases hs : s.handles fd with
  | none =>
    rw [hs] at hrel
    cases hrel
    exact .none
  | some hd =>
    rw [hs] at hrel
    cases hrel with
    | some hshows => exact .some (hshows.preserves hp (hkeep hd hs))

theorem setHandle (h : s.Shows a) (fd : ℕ) {handle : Option Handle} {place : Option (List UInt8 × ℕ)}
    (hrel : Option.Rel (HandleShows s.disk) handle place) :
    Shows { s with handles := Function.update s.handles fd handle }
      { a with handles := Function.update a.handles fd place } where
  ok := h.ok
  mounted := h.mounted
  files := h.files
  handles fd' := by
    dsimp only
    by_cases hfd : fd' = fd
    · rw [hfd, Function.update_self, Function.update_self]
      exact hrel
    · rw [Function.update_of_ne hfd, Function.update_of_ne hfd]
      exact h.handles fd'

theorem create (h : s.Shows a) (junk : ℕ → Image) (name : Image) {size : Int} (h0 : 0 ≤ size)
    (hmax : size ≤ maxFileSize) :
    ∃ success disk', s.fs.create junk s.disk name size = .ok (success, disk') ∧
      (if nameKey name ∈ a.files ∨ numDirEntries ≤ a.files.keys.card then success = false ∧ disk' = s.disk
      else success = true ∧ ∃ bytes : List UInt8, bytes.length = size ∧
        Shows { s with disk := disk' } { a with files := a.files.insert (nameKey name) bytes }) := by
  obtain ⟨success, disk', hrun, hiff⟩ := create_true_iff h.ok h.mounted junk name h0 hmax
  refine ⟨success, disk', hrun, ?_⟩
  rw [creatable_iff h.ok h.files hmax] at hiff
  rcases create_effect h.ok h.mounted hrun with ⟨rfl, hsame⟩ | ⟨rfl, i, w, hadded⟩
  · rw [if_pos (not_not.mp fun hnot => Bool.false_ne_true (hiff.mpr hnot))]
    exact ⟨rfl, hsame⟩
  · rw [if_neg (hiff.mp rfl)]
    obtain ⟨success, disk₁, hrun₁, hp⟩ := create_spec h.ok h.mounted junk name h0 hmax
    rw [hrun] at hrun₁
    cases hrun₁
    have hnumBytes : (headerOf disk' i).numBytes = size := hadded.numBytes (by omega)
      (lt_of_le_of_lt hmax (by decide))
    refine ⟨rfl, (headerOf disk' i).contents disk', ?_, hp.ok, h.mounted.preserves hp, ?_,
      fun fd => h.handles_preserved hp fun _ _ _ _ => trivial⟩
    · rw [contents_length, hnumBytes, Int.toNat_of_nonneg h0]
    · refine h.files.put hadded.lt (fun j hj _ bytes hs => ?_) (fun key bytes hs => ?_) hadded.fileAt.slotFile_eq
        fun j hj hji => h.ok.slotFile_congr hj (hadded.others j hj hji) hadded.frame fun x hx => ?_
      · obtain ⟨hu, hkey, -⟩ := slotFile_eq_some hs
        exact hadded.absent j ⟨hj, hu, hkey⟩
      · rw [slotFile_of_unused hadded.unused] at hs
        cases hs
      · have hmarked := (h.ok.exact.marked_iff x).mpr (Ledger.mem_owned.mpr (Or.inr ⟨j, hj, hx⟩))
        simp only [List.mem_append, List.mem_singleton, not_or]
        refine ⟨?_, fun hdir => ?_, fun hmap => ?_⟩
        · rintro rfl
          exact hadded.free hmarked
        · exact h.ok.system_disjoint hj x (by simp [systemSectors, hdir]) hx
        · exact h.ok.system_disjoint hj x (by simp [systemSectors, hmap]) hx

theorem openFile (h : s.Shows a) (junk : ℕ → Image) (name : Image) :
    ∃ sector file, s.fs.lookup junk s.disk name = .ok sector ∧ s.fs.openFile junk s.disk name = .ok file ∧
      file.isSome = decide (nameKey name ∈ a.files) ∧
      Option.Rel (HandleShows s.disk) (file.map (Handle.mk sector))
        (if nameKey name ∈ a.files then some (nameKey name, 0) else none) := by
  rcases openFile_spec h.ok.dirOk h.mounted.dir junk name with ⟨hlook, hopen, hnone⟩ | ⟨i, hfile, hlook, hopen⟩
  · have habsent : nameKey name ∉ a.files := fun hmem => not_exists.mpr hnone ((mem_files_iff h.files).mp hmem)
    refine ⟨_, none, hlook, hopen, by simp [habsent], ?_⟩
    rw [if_neg habsent]
    exact .none
  · have hmem : nameKey name ∈ a.files := (mem_files_iff h.files).mpr ⟨i, hfile⟩
    refine ⟨_, some ⟨headerOf s.disk i, 0⟩, hlook, hopen, by simp [hmem], ?_⟩
    rw [if_pos hmem]
    exact .some ⟨rfl, Nat.zero_lt_succ _, i, hfile.lt, hfile.inUse, rfl, hfile.key, rfl⟩

/-- A call that drops the handles of some files and keeps the others. -/
theorem handles_filtered (h : s.Shows a) {keep : Handle → Bool} {keep' : List UInt8 × ℕ → Bool}
    (hkeep : ∀ hd place, HandleShows s.disk hd place → keep hd = keep' place)
    (hshows : ∀ hd place, HandleShows s.disk hd place → keep hd = true → HandleShows disk' hd place) (fd : ℕ) :
    Option.Rel (HandleShows disk') ((s.handles fd).filter keep) ((a.handles fd).filter keep') := by
  have hrel := h.handles fd
  generalize s.handles fd = handle, a.handles fd = place at hrel ⊢
  cases hrel with
  | none => exact .none
  | @some hd place hhd =>
    cases hk : keep hd with
    | false =>
      have hk' : keep' place = false := (hkeep hd place hhd).symm.trans hk
      rw [Option.filter_some_neg (by simp [hk]), Option.filter_some_neg (by simp [hk'])]
      exact .none
    | true =>
      rw [Option.filter_some_pos hk, Option.filter_some_pos (by rw [← hkeep hd place hhd, hk])]
      exact .some (hshows hd place hhd hk)

theorem remove (h : s.Shows a) (junk : ℕ → Image) (name : Image) :
    ∃ sector disk', s.fs.lookup junk s.disk name = .ok sector ∧
      s.fs.remove junk s.disk name = .ok (decide (nameKey name ∈ a.files), disk') ∧
      Shows { s with disk := disk', handles := fun fd => (s.handles fd).filter fun hd => hd.sector ≠ sector }
        ⟨a.files.erase (nameKey name), fun fd => (a.handles fd).filter fun place => place.1 ≠ nameKey name⟩ := by
  rcases remove_cases h.ok h.mounted junk name with
    ⟨hlook, hrun, hnone⟩ | ⟨i, disk', hfile, hlook, hrun, ha, hothers, hgone, hp⟩
  · have habsent : nameKey name ∉ a.files := fun hmem => not_exists.mpr hnone ((mem_files_iff h.files).mp hmem)
    have herase : a.files.erase (nameKey name) = a.files := by
      refine Finmap.ext_lookup fun key => ?_
      by_cases hkey : key = nameKey name
      · rw [hkey, Finmap.lookup_erase, Finmap.lookup_eq_none.mpr habsent]
      · rw [Finmap.lookup_erase_ne hkey]
    refine ⟨_, s.disk, hlook, by rw [hrun, decide_eq_false habsent], h.ok, h.mounted, ?_,
      h.handles_filtered (fun hd place hhd => ?_) fun _ _ hhd _ => hhd⟩
    · rw [herase]
      exact h.files
    · obtain ⟨-, -, j, hj, hu, hsector, hkey, -⟩ := hhd
      have h0 := (h.ok.sector_range hj hu).1
      rw [decide_eq_true (by omega), decide_eq_true]
      exact fun heq => hnone j ⟨hj, hu, hkey.trans heq⟩
  · have hmem : nameKey name ∈ a.files := (mem_files_iff h.files).mpr ⟨i, hfile⟩
    refine ⟨_, disk', hlook, by rw [hrun, decide_eq_true hmem], hp.ok, h.mounted.preserves hp, ?_,
      h.handles_filtered (fun hd place hhd => ?_) fun hd place hhd hne => ?_⟩
    · have hentry := entryAt_of_dirHeader hp.dirHeader
      refine h.files.empty_slot hfile.lt hfile.slotFile_eq (slotFile_of_unused (by rw [hentry, hgone]))
        fun j hj hji => h.ok.slotFile_congr hj (by rw [hentry]; exact hothers j hj hji) ha fun x hx => ?_
      simp only [List.mem_append, not_or]
      exact ⟨fun hdir => h.ok.system_disjoint hj x (by simp [systemSectors, hdir]) hx,
        fun hmap => h.ok.system_disjoint hj x (by simp [systemSectors, hmap]) hx⟩
    · exact decide_eq_decide.mpr (not_congr (hhd.sector_eq_iff h.ok hfile))
    · refine hhd.preserves hp fun j hj hji => ?_
      rw [decide_eq_true_iff] at hne
      exact hne (by rw [← hj, hji])

end FsState.Shows

/-! ## The calls through a descriptor -/

theorem length_overwrite (bytes : List UInt8) (p : ℕ) (data : List UInt8) :
    (overwrite bytes p data).length = bytes.length := by
  unfold overwrite
  simp only [List.length_append, List.length_take, List.length_drop]
  omega

theorem getElem?_overwrite (bytes : List UInt8) (p : ℕ) (data : List UInt8) {q : ℕ} (hq : q < bytes.length) :
    (overwrite bytes p data)[q]? = if p ≤ q ∧ q < p + data.length then data[q - p]? else bytes[q]? := by
  unfold overwrite
  by_cases hbefore : q < p
  · rw [if_neg (by omega), List.append_assoc, List.getElem?_append_left (by rw [List.length_take]; omega),
      List.getElem?_take_of_lt hbefore]
  · have hfirst : (bytes.take p).length = p := by
      rw [List.length_take]
      omega
    rw [List.append_assoc, List.getElem?_append_right (by omega), hfirst]
    by_cases hin : q < p + data.length
    · rw [if_pos (by omega), List.getElem?_append_left (by rw [List.length_take]; omega),
        List.getElem?_take_of_lt (by omega)]
    · have hsecond : (data.take (bytes.length - p)).length = data.length := by
        rw [List.length_take]
        omega
      rw [if_neg (by omega), List.getElem?_append_right (by omega), hsecond, List.getElem?_drop]
      congr 1
      omega

theorem transferred_eq {h : FileHeader} (wf : h.WellFormed) (disk : Disk) (n : Int) {p : Int} (hp : 0 ≤ p) :
    transferred h n p = (min n.toNat ((h.contents disk).length - p.toNat) : ℕ) := by
  have hnonneg := wf.nonneg
  rw [contents_length]
  unfold transferred
  omega

/-- A transfer does not move the position beyond the bound. -/
theorem position_lt {h : FileHeader} (wf : h.WellFormed) (disk : Disk) {p : ℕ} (hp : p < halfRange) (n : ℕ) :
    p + min n ((h.contents disk).length - p) < halfRange := by
  have hcovered := wf.covered
  have hfits := wf.fits
  rw [contents_length]
  simp only [halfRange, numDirect, sectorSize] at *
  omega

theorem writeAt_contents {h : FileHeader} (wf : h.WellFormed) (disk : Disk) (junk src : Image) (n p : Int) (hp : 0 ≤ p)
    (ho : p + n ≤ intMax) :
    ∃ disk', writeAt disk h junk src n p = .ok ((min n.toNat ((h.contents disk).length - p.toNat) : ℕ), disk') ∧
      h.contents disk' = overwrite (h.contents disk) p.toNat ((List.range n.toNat).map src) ∧
      AgreeOff h.sectors disk disk' := by
  obtain ⟨disk', hrun, hin, hout⟩ := writeAt_eq wf disk junk src n p hp ho
  refine ⟨disk', by rw [hrun, transferred_eq wf disk n hp], ?_, AgreeOff.of_frame wf hout⟩
  apply List.ext_getElem?
  intro q
  by_cases hq : q < h.numBytes.toNat
  · rw [getElem?_overwrite _ _ _ (by rwa [contents_length]), contents_getElem?, contents_getElem?, if_pos hq, if_pos hq,
      hin q (by omega), List.length_map, List.length_range]
    have hspan : (p ≤ q ∧ (q : Int) < p + transferred h n p) ↔ p.toNat ≤ q ∧ q < p.toNat + n.toNat := by
      unfold transferred
      omega
    rw [if_congr hspan rfl rfl]
    split
    · rw [List.getElem?_map, List.getElem?_range (by omega), Option.map_some]
    · rfl
  · rw [List.getElem?_eq_none (by rw [contents_length]; omega),
      List.getElem?_eq_none (by rw [length_overwrite, contents_length]; omega)]

namespace FsState.Shows

variable {s : FsState} {a : FileStore}

/-- What a call does on an open file, said of its bytes. -/
def Transfers (disk : Disk) (call : OpenFile → Call (FsResult × Disk × OpenFile)) (f : OnBytes) : Prop :=
  ∀ (h : FileHeader) (p : ℕ), h.WellFormed → p < halfRange → ∃ disk',
    call ⟨h, p⟩ = .ok ((f (h.contents disk) p).1, disk', ⟨h, ((f (h.contents disk) p).2.2 : ℕ)⟩) ∧
    h.contents disk' = (f (h.contents disk) p).2.1 ∧ AgreeOff h.sectors disk disk' ∧
    (f (h.contents disk) p).2.2 < halfRange

/-- The bytes of one file are changed through its header. -/
theorem written (h : s.Shows a) {i : ℕ} (hi : i < numDirEntries) (hu : (entryAt s.disk i).inUse = true)
    (ha : AgreeOff (headerOf s.disk i).sectors s.disk disk') :
    Shows { s with disk := disk' } { a with
      files := a.files.insert (entryAt s.disk i).key ((headerOf s.disk i).contents disk') } := by
  obtain ⟨-, -, hentry⟩ := h.ok.overwrite_entries (h.ok.system_not_data hi hu) ha
  have hp := h.ok.write hi hu ha
  have hhdr : headerOf disk' i = headerOf s.disk i := (hp.kept i hi hu trivial).headerOf_eq hu
  refine ⟨hp.ok, h.mounted.preserves hp, ?_, fun fd => h.handles_preserved hp fun _ _ _ _ => trivial⟩
  refine h.files.put hi (fun j hj hji bytes hs => ?_) (fun key bytes hs => ?_) ?_ fun j hj hji =>
    h.ok.slotFile_congr hj (hentry j hj) ha fun x hx hdata =>
      h.ok.exact.slots_disjoint hi hj (Ne.symm hji) (data_mem_ownSectors hu hdata) hx
  · obtain ⟨huj, hkey, -⟩ := slotFile_eq_some hs
    exact hji (h.ok.names j hj i hi huj hu hkey)
  · exact (slotFile_eq_some hs).2.1.symm
  · rw [slotFile_of_inUse ((hentry i hi).inUse.trans hu), (hentry i hi).key, hhdr]

theorem through (h : s.Shows a) (fd : ℕ) {call : OpenFile → Call (FsResult × Disk × OpenFile)} {f : OnBytes}
    (hcall : Transfers s.disk call f) :
    ∃ r s' a', s.through fd call = .ok (r, s') ∧ a.Through fd f r a' ∧ s'.Shows a' := by
  have hrel := h.handles fd
  unfold FsState.through FileStore.Through
  cases hs : s.handles fd with
  | none =>
    rw [hs] at hrel
    generalize a.handles fd = place at hrel ⊢
    cases hrel
    exact ⟨.done, s, a, rfl, ⟨rfl, rfl⟩, h⟩
  | some hd =>
    rw [hs] at hrel
    generalize a.handles fd = place at hrel ⊢
    cases hrel with
    | @some _ place hhd =>
      obtain ⟨key, p⟩ := place
      obtain ⟨hposition, hbound, i, hi, hu, hsector, rfl, hhdr⟩ := hhd
      have hfile : hd.file = ⟨headerOf s.disk i, p⟩ := by
        rw [← hhdr, ← hposition]
      obtain ⟨disk', hrun, hcontents, ha, hlt⟩ := hcall _ p (h.ok.file_wellFormed hi hu) hbound
      have hk := (h.ok.write hi hu ha).kept i hi hu trivial
      have hshows := (h.written hi hu ha).setHandle fd (.some (⟨rfl, hlt, i, hi, hk.entry.inUse.trans hu,
        hk.entry.sector.trans hsector, hk.entry.key, (hk.headerOf_eq hu).symm⟩ : HandleShows disk'
          ⟨hd.sector, ⟨headerOf s.disk i, ((f ((headerOf s.disk i).contents s.disk) p).2.2 : ℕ)⟩⟩
          ((entryAt s.disk i).key, (f ((headerOf s.disk i).contents s.disk) p).2.2)))
      rw [hcontents] at hshows
      refine ⟨_, _, _, ?_, ⟨_, h.files.lookup hi (slotFile_of_inUse hu), rfl, rfl⟩, hshows⟩
      simp only [hfile, hrun, ok_bind, pure_eq_ok]

/-! ## Every call -/

theorem transfers_same {call : OpenFile → Call (FsResult × Disk × OpenFile)} {f : OnBytes} {disk : Disk}
    (hcall : ∀ (h : FileHeader) (p : ℕ), h.WellFormed → p < halfRange →
      call ⟨h, p⟩ = .ok ((f (h.contents disk) p).1, disk, ⟨h, ((f (h.contents disk) p).2.2 : ℕ)⟩) ∧
      (f (h.contents disk) p).2.1 = h.contents disk ∧ (f (h.contents disk) p).2.2 < halfRange) :
    Transfers disk call f := by
  intro h p wf hp
  obtain ⟨hrun, hbytes, hlt⟩ := hcall h p wf hp
  exact ⟨disk, hrun, hbytes.symm, fun _ _ => rfl, hlt⟩

theorem legal_sum {p n : Int} (hp : p < halfRange) (hn : n < halfRange) : p + n ≤ intMax := by
  simp only [halfRange, intMax] at *
  omega

theorem mount_eq (disk : Disk) : FileSystem.mount disk = .ok ⟨⟨mapHeader disk, 0⟩, ⟨dirHeader disk, 0⟩⟩ := by
  have hmap : OpenFile.openAt disk freeMapSector = .ok ⟨mapHeader disk, 0⟩ := openAt_eq (by decide) (by decide)
  have hdir : OpenFile.openAt disk directorySector = .ok ⟨dirHeader disk, 0⟩ := openAt_eq (by decide) (by decide)
  simp only [FileSystem.mount, hmap, hdir, ok_bind, pure_eq_ok]

theorem perform (h : s.Shows a) (c : LegalCall) :
    ∃ r s' a', s.perform c.junk c.call = .ok (r, s') ∧ a.Answer c r a' ∧ s'.Shows a' := by
  obtain ⟨call, junk, legal⟩ := c
  match call with
  | .op (.create name size) =>
    obtain ⟨success, disk', hrun, hanswer⟩ := h.create junk name legal.1 legal.2
    by_cases hrefused : nameKey name ∈ a.files ∨ numDirEntries ≤ a.files.keys.card
    · rw [if_pos hrefused] at hanswer
      obtain ⟨rfl, rfl⟩ := hanswer
      refine ⟨.success false, s, a, ?_, ?_, h⟩
      · simp only [FsState.perform, hrun, ok_bind, pure_eq_ok]
      · dsimp only [FileStore.Answer]
        rw [if_pos hrefused]
        exact ⟨rfl, rfl⟩
    · rw [if_neg hrefused] at hanswer
      obtain ⟨rfl, bytes, hlength, hshows⟩ := hanswer
      refine ⟨.success true, _, _, ?_, ?_, hshows⟩
      · simp only [FsState.perform, hrun, ok_bind, pure_eq_ok]
      · dsimp only [FileStore.Answer]
        rw [if_neg hrefused]
        exact ⟨bytes, hlength, rfl, rfl⟩
  | .op (.openFile name fd) =>
    obtain ⟨sector, file, hlook, hopen, hfound, hrel⟩ := h.openFile junk name
    refine ⟨.success (nameKey name ∈ a.files), _, _, ?_, ⟨rfl, rfl⟩, h.setHandle fd hrel⟩
    simp only [FsState.perform, hlook, hopen, ok_bind, pure_eq_ok, hfound]
  | .op (.remove name) =>
    obtain ⟨sector, disk', hlook, hrun, hshows⟩ := h.remove junk name
    refine ⟨.success (nameKey name ∈ a.files), _, _, ?_, ⟨rfl, rfl⟩, hshows⟩
    simp only [FsState.perform, hlook, hrun, ok_bind, pure_eq_ok]
  | .op (.read fd n) =>
    dsimp only [FsState.perform, FileStore.Answer]
    refine h.through fd (transfers_same fun hdr p wf hp => ?_)
    obtain ⟨bytes, hrun, hbytes⟩ :=
      readAt_contents wf s.disk (junk 0) n p (by omega) (legal_sum (by exact_mod_cast hp) legal)
    refine ⟨?_, rfl, position_lt wf s.disk hp n.toNat⟩
    simp only [OpenFile.read, hrun, ok_bind, pure_eq_ok, hbytes]
    rw [transferred_eq wf s.disk n (by omega), Int.toNat_natCast, Int.natCast_add]
  | .op (.write fd src n) =>
    dsimp only [FsState.perform, FileStore.Answer]
    refine h.through fd fun hdr p wf hp => ?_
    obtain ⟨disk', hrun, hcontents, ha⟩ :=
      writeAt_contents wf s.disk (junk 0) src n p (by omega) (legal_sum (by exact_mod_cast hp) legal)
    rw [Int.toNat_natCast] at hrun hcontents
    refine ⟨disk', ?_, hcontents, ha, position_lt wf s.disk hp n.toNat⟩
    simp only [OpenFile.write, hrun, ok_bind, pure_eq_ok, Int.natCast_add]
  | .op (.readAt fd n q) =>
    dsimp only [FsState.perform, FileStore.Answer]
    refine h.through fd (transfers_same fun hdr p wf hp => ⟨?_, rfl, hp⟩)
    obtain ⟨bytes, hrun, hbytes⟩ := readAt_contents wf s.disk (junk 0) n q legal.2.1 (legal_sum legal.2.2 legal.1)
    simp only [hrun, ok_bind, pure_eq_ok, hbytes]
  | .op (.writeAt fd src n q) =>
    dsimp only [FsState.perform, FileStore.Answer]
    refine h.through fd fun hdr p wf hp => ?_
    obtain ⟨disk', hrun, hcontents, ha⟩ := writeAt_contents wf s.disk (junk 0) src n q legal.2.1
      (legal_sum legal.2.2 legal.1)
    refine ⟨disk', ?_, hcontents, ha, hp⟩
    simp only [hrun, ok_bind, pure_eq_ok]
  | .op (.seek fd q) =>
    dsimp only [FsState.perform, FileStore.Answer]
    refine h.through fd (transfers_same fun hdr p wf hp => ⟨?_, rfl, ?_⟩)
    · simp only [OpenFile.seek, Int.toNat_of_nonneg legal.1]
    · have hq := legal.2
      dsimp only
      omega
  | .op (.close fd) =>
    exact ⟨.done, _, _, rfl, ⟨rfl, rfl⟩, h.setHandle fd .none⟩
  | .length fd =>
    dsimp only [FsState.perform, FileStore.Answer]
    refine h.through fd (transfers_same fun hdr p wf hp => ⟨?_, rfl, hp⟩)
    simp only [OpenFile.length, FileHeader.fileLength, contents_length, Int.toNat_of_nonneg wf.nonneg]
  | .restart =>
    refine ⟨.done, ⟨⟨⟨mapHeader s.disk, 0⟩, ⟨dirHeader s.disk, 0⟩⟩, s.disk, fun _ => none⟩, _, ?_, ⟨rfl, rfl⟩, h.ok,
      ⟨rfl, rfl⟩, h.files, fun _ => .none⟩
    simp only [FsState.perform, mount_eq, ok_bind, pure_eq_ok]

end FsState.Shows

/-- A formatted disk shows no file. -/
theorem shows_empty {junk : ℕ → Image} (hrun : FileSystem.format junk disk = .ok (fs, disk')) :
    FsState.Shows ⟨fs, disk', fun _ => none⟩ ⟨∅, fun _ => none⟩ := by
  obtain ⟨fs₁, disk₁, hrun₁, ok, hm, hunused⟩ := format_spec junk disk
  rw [hrun] at hrun₁
  cases hrun₁
  refine ⟨ok, hm, ⟨fun i hi j hj key bytes bytes' hs => ?_, fun key bytes => ⟨fun hl => ?_, ?_⟩⟩, fun _ => .none⟩
  · rw [slotFile_of_unused (hunused i hi)] at hs
    cases hs
  · rw [Finmap.lookup_empty] at hl
    cases hl
  · rintro ⟨i, hi, hs⟩
    rw [slotFile_of_unused (hunused i hi)] at hs
    cases hs

/-- Whatever the disk held before it was formatted, every sequence of calls and restarts after it returns what the view
of a map from names to bytes says, and ends with a disk that shows the view. -/
theorem fileSystem_refines_fileMap (junk : ℕ → Image) (disk : Disk) (cs : List LegalCall) :
    ∃ fs disk₀ rs s a, FileSystem.format junk disk = .ok (fs, disk₀) ∧
      callAll (fun s c => FsState.perform s c.junk c.call) ⟨fs, disk₀, fun _ => none⟩ cs = .ok (rs, s) ∧
      Answers FileStore.Answer ⟨∅, fun _ => none⟩ cs rs a ∧ s.Shows a := by
  obtain ⟨fs, disk₀, hrun, -⟩ := format_spec junk disk
  obtain ⟨rs, s, a, hcalls, hanswers, hshows⟩ := callAll_refines FsState.Shows (fun _ _ c h => h.perform c)
    (shows_empty hrun) cs
  exact ⟨fs, disk₀, rs, s, a, hrun, hcalls, hanswers, hshows⟩

end Nachos
