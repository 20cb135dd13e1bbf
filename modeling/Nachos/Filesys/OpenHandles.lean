import Nachos.Filesys.Names

/-! # Writing through a file that is no longer there

An `OpenFile` has its own copy of the header. `Remove` gives the sectors of the file back to the free map and does not
know about the open files, so that a later `Create` can hand them to another file while they are still written through
the old handle. As long as a file is only written while it is in the directory, or while none of its sectors has been
given away, a write stays in the sectors of its own file. -/
set_option autoImplicit false

namespace Nachos
open Buffer Execution

/-! ## The file system with its open files -/

/-- The file system with handles that outlive their files; `removed` records whether the file of a descriptor has been
removed since it was opened. -/
structure OpenState extends FsState where
  removed : ℕ → Bool

namespace OpenState

def step (s : OpenState) (junk : ℕ → Image) : FsOp → Call OpenState
  | .remove name => do
    let sector ← s.fs.lookup junk s.disk name
    let (_, disk) ← s.fs.remove junk s.disk name
    return { s with
      disk := disk
      removed := fun fd => s.removed fd || (s.handles fd).any fun hd => hd.sector = sector }
  | .openFile name fd => do
    let next ← s.toFsState.step junk (.openFile name fd)
    return { toFsState := next, removed := Function.update s.removed fd false }
  | op => do
    let next ← s.toFsState.step junk op
    return { toFsState := next, removed := s.removed }

def Formatted (s : OpenState) : Prop := s.toFsState.Formatted

/-- The file is still in the directory, or the free map marks none of its sectors. -/
def Untaken (s : OpenState) (fd : ℕ) : Prop :=
  ∀ hd, s.handles fd = some hd → s.removed fd = false ∨ ∀ x ∈ hd.file.hdr.sectors, ¬ marked s.disk x

/-- Files are created with a size a header has room for, and written only while their sectors are not another
file's. -/
def Careful (s : OpenState) (call : (ℕ → Image) × FsOp) : Prop :=
  s.toFsState.Allowed call ∧ ∀ fd, call.2.written = some fd → s.Untaken fd

/-- The states that careful calls reach from a formatted disk. -/
def Reached : OpenState → Prop := Reachable Formatted (fun s call s' => s.step call.1 call.2 = .ok s') Careful

/-- A call through descriptor `fd` has changed sectors of its file only: none of the system files, and none of a file
in the directory unless it is this one. -/
def WritesOwn (s : OpenState) (fd : ℕ) (s' : OpenState) : Prop :=
  ∀ t : ℕ, s'.disk t ≠ s.disk t → ∃ hd, s.handles fd = some hd ∧ (t : Int) ∈ hd.file.hdr.sectors ∧
    (t : Int) ∉ systemSectors s.disk ∧ ∀ j < numDirEntries, (t : Int) ∈ ownSectors s.disk j →
      s.removed fd = false ∧ (entryAt s.disk j).sector = hd.sector

/-! ## Careful runs -/

structure Inv (s : OpenState) : Prop where
  ok : DiskOk s.disk
  mounted : Mounted s.fs s.disk
  wellFormed : ∀ fd hd, s.handles fd = some hd → hd.file.hdr.WellFormed
  present : ∀ fd hd, s.handles fd = some hd → s.removed fd = false → HandleOk s.disk hd

variable {s s' : OpenState}

/-- A call that keeps the files of the handles whose file has not been removed keeps the invariant. -/
theorem Inv.preserves (hinv : s.Inv) {disk' : Disk} {keep : ℕ → Prop} (hp : Preserves s.disk disk' keep)
    {handles' : ℕ → Option Handle} {removed' : ℕ → Bool}
    (hwf : ∀ fd hd, handles' fd = some hd → hd.file.hdr.WellFormed)
    (hh : ∀ fd hd, handles' fd = some hd → removed' fd = false → HandleOk s.disk hd ∧
      ∀ i, (entryAt s.disk i).sector = hd.sector → keep i) :
    Inv ⟨{ s.toFsState with disk := disk', handles := handles' }, removed'⟩ where
  ok := hp.ok
  mounted := ⟨hinv.mounted.map.trans hp.mapHeader.symm, hinv.mounted.dir.trans hp.dirHeader.symm⟩
  wellFormed := hwf
  present fd hd hfd hremoved := by
    obtain ⟨⟨i, hi, hu, hsec, hhdr⟩, hkeep⟩ := hh fd hd hfd hremoved
    have hk := hp.kept i hi hu (hkeep i hsec)
    exact ⟨i, hi, by rw [hk.entry.inUse, hu], by rw [hk.entry.sector, hsec], by rw [hk.headerOf_eq hu, hhdr]⟩

/-- The sectors of an open file that may be written are no system file's and no other file's. -/
theorem Inv.untaken (hinv : s.Inv) {fd : ℕ} {hd : Handle} (hfd : s.handles fd = some hd) (huntaken : s.Untaken fd)
    {x : Int} (hx : x ∈ hd.file.hdr.sectors) : x ∉ systemSectors s.disk ∧ ∀ j < numDirEntries,
      x ∈ ownSectors s.disk j → s.removed fd = false ∧ (entryAt s.disk j).sector = hd.sector ∧
        (entryAt s.disk j).sector ≠ x := by
  rcases huntaken hd hfd with hpresent | hfree
  · obtain ⟨i, hi, hu, hsec, hhdr⟩ := hinv.present fd hd hfd hpresent
    rw [hhdr] at hx
    have hown := data_mem_ownSectors hu hx
    refine ⟨fun hsys => hinv.ok.system_disjoint hi x hsys hown, fun j hj hxj => ?_⟩
    have hji : j = i := by
      by_contra hne
      exact hinv.ok.exact.slots_disjoint hi hj (Ne.symm hne) hown hxj
    subst hji
    refine ⟨hpresent, hsec, fun he => ?_⟩
    have hnd := hinv.ok.exact.slot_nodup hj
    rw [ownSectors_of_inUse hu, he] at hnd
    exact (List.nodup_cons.mp hnd).1 hx
  · have hnot := hfree x hx
    rw [hinv.ok.exact.marked_iff, Ledger.mem_owned, not_or] at hnot
    exact ⟨hnot.1, fun j hj hxj => absurd ⟨j, hj, hxj⟩ hnot.2⟩

theorem Inv.onFile (hinv : s.Inv) {fd : ℕ} {op : FsOp} {call : OpenFile → Call (Disk × OpenFile)}
    (hcall : ∀ f disk' f', f.hdr.WellFormed → call f = .ok (disk', f') → f'.hdr = f.hdr ∧
      AgreeOff f.hdr.sectors s.disk disk' ∧ (op.written ≠ some fd → disk' = s.disk))
    (huntaken : op.written = some fd → s.Untaken fd) {next : FsState}
    (hrun : s.toFsState.onFile fd call = .ok next) :
    Inv ⟨next, s.removed⟩ ∧ WritesOwn s fd ⟨next, s.removed⟩ := by
  unfold FsState.onFile at hrun
  cases hfd : s.handles fd with
  | none =>
    rw [hfd] at hrun
    cases hrun
    exact ⟨hinv, fun t ht => absurd rfl ht⟩
  | some hd =>
    rw [hfd] at hrun
    obtain ⟨⟨disk', f'⟩, hf, hrun⟩ := bind_eq_ok.mp hrun
    cases hrun
    obtain ⟨hsame, hframe, hread⟩ := hcall hd.file disk' f' (hinv.wellFormed fd hd hfd) hf
    have hpres : Preserves s.disk disk' fun _ => True := by
      by_cases hwrite : op.written = some fd
      · have hown := fun x hx => hinv.untaken hfd (huntaken hwrite) (x := x) hx
        refine hinv.ok.overwrite (fun x hsys hx => (hown x hx).1 hsys) (fun j hj hu hx => ?_) hframe
        refine ((hown _ hx).2 j hj ?_).2.2 rfl
        rw [ownSectors_of_inUse hu]
        exact List.mem_cons_self
      · rw [hread hwrite]
        exact Preserves.refl hinv.ok _
    refine ⟨hinv.preserves hpres (fun fd' hd' hfd' => ?_) (fun fd' hd' hfd' hpresent => ⟨?_, fun _ _ => trivial⟩),
      fun t ht => ?_⟩
    · by_cases h : fd' = fd
      · subst h
        rw [Function.update_self] at hfd'
        cases hfd'
        show f'.hdr.WellFormed
        rw [hsame]
        exact hinv.wellFormed fd' hd hfd
      · rw [Function.update_of_ne h] at hfd'
        exact hinv.wellFormed fd' hd' hfd'
    · by_cases h : fd' = fd
      · subst h
        rw [Function.update_self] at hfd'
        cases hfd'
        obtain ⟨i, hi, hu, hsec, hhdr⟩ := hinv.present fd' hd hfd hpresent
        exact ⟨i, hi, hu, hsec, hsame.trans hhdr⟩
      · rw [Function.update_of_ne h] at hfd'
        exact hinv.present fd' hd' hfd' hpresent
    · have hmem : (t : Int) ∈ hd.file.hdr.sectors := by
        by_contra hnot
        exact ht (hframe t hnot)
      have hwrite : op.written = some fd := by
        by_contra hne
        exact ht (congrFun (hread hne) t)
      obtain ⟨hsys, hfiles⟩ := hinv.untaken hfd (huntaken hwrite) hmem
      exact ⟨hd, hfd, hmem, hsys, fun j hj hx => ⟨(hfiles j hj hx).1, (hfiles j hj hx).2.1⟩⟩

theorem step_through (s : OpenState) (junk : ℕ → Image) {op : FsOp} {fd : ℕ} (h : op.through = some fd) :
    s.step junk op = s.toFsState.step junk op >>= fun next => .ok ⟨next, s.removed⟩ := by
  cases op <;> first | rfl | cases h

theorem through_of_written {op : FsOp} {fd : ℕ} (h : op.written = some fd) : op.through = some fd := by
  cases op <;> first | exact h | cases h

theorem Inv.setHandle (hinv : s.Inv) (fd : ℕ) {handle : Option Handle}
    (hwf : ∀ hd, handle = some hd → hd.file.hdr.WellFormed) (hh : ∀ hd, handle = some hd → HandleOk s.disk hd)
    {removed' : ℕ → Bool} (hremoved : ∀ fd', fd' ≠ fd → removed' fd' = s.removed fd') :
    Inv ⟨{ s.toFsState with handles := Function.update s.handles fd handle }, removed'⟩ := by
  refine ⟨hinv.ok, hinv.mounted, fun fd' hd hfd' => ?_, fun fd' hd hfd' hpresent => ?_⟩
  · dsimp only at hfd'
    by_cases h : fd' = fd
    · rw [h, Function.update_self] at hfd'
      exact hwf hd hfd'
    · rw [Function.update_of_ne h] at hfd'
      exact hinv.wellFormed fd' hd hfd'
  · dsimp only at hfd' hpresent
    by_cases h : fd' = fd
    · rw [h, Function.update_self] at hfd'
      exact hh hd hfd'
    · rw [Function.update_of_ne h] at hfd'
      exact hinv.present fd' hd hfd' ((hremoved fd' h).symm.trans hpresent)

theorem Inv.openFile (hinv : s.Inv) {junk : ℕ → Image} {name : Image} {fd : ℕ}
    (hs : s.step junk (.openFile name fd) = .ok s') : s'.Inv := by
  have hkept : ∀ fd', fd' ≠ fd → Function.update s.removed fd false fd' = s.removed fd' :=
    fun fd' h => Function.update_of_ne h _ _
  rcases openFile_spec hinv.ok.dirOk hinv.mounted.dir junk name with ⟨hlook, hopen, -⟩ | ⟨i, hfile, hlook, hopen⟩
  · simp only [OpenState.step, FsState.step, hlook, hopen, ok_bind, pure_eq_ok] at hs
    cases hs
    exact hinv.setHandle fd (fun hd hhd => (Option.some_ne_none hd hhd.symm).elim)
      (fun hd hhd => (Option.some_ne_none hd hhd.symm).elim) hkept
  · simp only [OpenState.step, FsState.step, hlook, hopen, ok_bind, pure_eq_ok] at hs
    cases hs
    refine hinv.setHandle fd (fun hd hhd => ?_) (fun hd hhd => ?_) hkept
    · cases hhd
      exact hinv.ok.file_wellFormed hfile.lt hfile.inUse
    · cases hhd
      exact ⟨i, hfile.lt, hfile.inUse, rfl, rfl⟩

theorem Inv.remove (hinv : s.Inv) {junk : ℕ → Image} {name : Image} (hs : s.step junk (.remove name) = .ok s') :
    s'.Inv := by
  obtain ⟨sector, r, disk', hlook, hrun, hp⟩ := remove_spec hinv.ok hinv.mounted junk name
  simp only [OpenState.step, hlook, hrun, ok_bind, pure_eq_ok] at hs
  cases hs
  refine hinv.preserves hp hinv.wellFormed fun fd hd hfd hpresent => ?_
  rw [Bool.or_eq_false_iff, hfd] at hpresent
  refine ⟨hinv.present fd hd hfd hpresent.1, fun i hi => ?_⟩
  rw [hi]
  simpa using hpresent.2

theorem Inv.step (hinv : s.Inv) {call : (ℕ → Image) × FsOp} (hcareful : s.Careful call)
    (hs : s.step call.1 call.2 = .ok s') : s'.Inv ∧ ∀ fd, call.2.written = some fd → WritesOwn s fd s' := by
  obtain ⟨junk, op⟩ := call
  obtain ⟨hallowed, huntaken⟩ := hcareful
  rcases FsState.step_cases s.toFsState junk op with
    ⟨name, size, rfl⟩ | ⟨name, fd, rfl⟩ | ⟨name, rfl⟩ | ⟨fd, rfl⟩ | ⟨fd, call, hthrough, hcall, hframe⟩
  · obtain ⟨h0, hmax⟩ := hallowed name size rfl
    obtain ⟨r, disk', hrun, hp⟩ := create_spec hinv.ok hinv.mounted junk name h0 hmax
    simp only [OpenState.step, FsState.step, hrun, ok_bind, pure_eq_ok] at hs
    cases hs
    refine ⟨hinv.preserves hp hinv.wellFormed fun fd hd hfd hpresent =>
      ⟨hinv.present fd hd hfd hpresent, fun _ _ => trivial⟩, fun fd hwritten => ?_⟩
    cases hwritten
  · refine ⟨hinv.openFile hs, fun fd hwritten => ?_⟩
    cases hwritten
  · refine ⟨hinv.remove hs, fun fd hwritten => ?_⟩
    cases hwritten
  · cases hs
    refine ⟨hinv.setHandle fd (fun hd hhd => (Option.some_ne_none hd hhd.symm).elim)
      (fun hd hhd => (Option.some_ne_none hd hhd.symm).elim) fun _ _ => rfl, fun fd hwritten => ?_⟩
    cases hwritten
  · dsimp only at hs huntaken ⊢
    rw [step_through s junk hthrough, hcall] at hs
    obtain ⟨next, hnext, hs⟩ := bind_eq_ok.mp hs
    cases hs
    obtain ⟨hinv', hown⟩ := hinv.onFile hframe (huntaken fd) hnext
    refine ⟨hinv', fun fd' hwritten => ?_⟩
    have hfd : fd' = fd := Option.some.inj ((through_of_written hwritten).symm.trans hthrough)
    rw [hfd]
    exact hown

theorem Formatted.inv (h : s.Formatted) : s.Inv := by
  have hinv := FsState.Formatted.inv h
  obtain ⟨-, -, -, hhandles⟩ := h
  refine ⟨hinv.ok, hinv.mounted, fun fd hd hfd => ?_, fun fd hd hfd _ => hinv.handles fd hd hfd⟩
  rw [hhandles] at hfd
  cases hfd

theorem Reached.inv (h : s.Reached) : s.Inv :=
  Reachable.invariant Inv (fun _ hi => hi.inv) (fun _ _ _ hinv hcareful hs => (hinv.step hcareful hs).1) h

end OpenState

/-! ## The sectors that a new file is given -/

section Fresh
variable {disk disk' : Disk} {fs : FileSystem} {name : Image}

/-- The first sector that is not in a set. -/
structure IsFirst (taken : ℕ → Prop) (w : ℕ) : Prop where
  free : ¬ taken w
  below : ∀ x < w, taken x

theorem IsFirst.unique {taken taken' : ℕ → Prop} {w w' : ℕ} (h : IsFirst taken w) (h' : IsFirst taken' w')
    (hsame : ∀ x < numSectors, taken x ↔ taken' x) (hw : w < numSectors) (hw' : w' < numSectors) : w = w' := by
  rcases Nat.lt_trichotomy w w' with hlt | heq | hlt
  · exact absurd ((hsame w hw).mpr (h'.below w hlt)) h.free
  · exact heq
  · exact absurd ((hsame w' hw').mp (h.below w' hlt)) h'.free

/-- What `Allocate` takes for a file of at most one sector. -/
theorem allocate_small {h g : FileHeader} {b c : BitMap} {size : Int} (h0 : 0 ≤ size) (hmax : size ≤ sectorSize)
    (hbits : b.numBits = (numSectors : ℕ)) (hclear : ∃ x < numSectors, b.bit x = false)
    (halloc : h.allocate b size = .ok (true, g, c)) : (size = 0 → g.sectors = []) ∧
      (0 < size → ∃ d < numSectors, g.sectors = [(d : Int)] ∧ IsFirst (fun x => b.bit x = true) d) := by
  have hround : divRoundUp size sectorSize = (size + 127) / 128 := divRoundUp_of_nonneg h0
  unfold FileHeader.allocate at halloc
  rw [b.numClear_eq, ok_bind] at halloc
  dsimp only at halloc
  split at halloc
  · cases halloc
  · rcases Int.lt_or_eq_of_le h0 with hpos | hzero
    · have hone : divRoundUp size sectorSize = 1 := by
        rw [hround]
        simp only [sectorSize] at hmax
        omega
      rcases b.findFrom_spec 0 b.numBits.toNat (by omega) with ⟨-, hall⟩ | ⟨d, c, hfind, hlt, hbit, hbelow, -, -⟩
      · obtain ⟨x, hx, hbit⟩ := hclear
        rw [hall x (by omega) (by omega)] at hbit
        cases hbit
      · rw [hone] at halloc
        simp only [Int.toNat_one, FileHeader.allocateBelow, BitMap.find, ok_bind, hfind, numDirect] at halloc
        cases halloc
        refine ⟨fun hz => absurd hz (by omega), fun _ => ⟨d, by omega, ?_, ?_⟩⟩
        · simp [FileHeader.sectors]
        · exact ⟨by rw [hbit]; simp, fun x hx => hbelow x (by omega) hx⟩
    · subst hzero
      cases halloc
      exact ⟨fun _ => rfl, fun hpos => absurd hpos (by decide)⟩

/-- A file of at most one sector is created: its header goes to the first free sector, its data to the next one. -/
theorem create_small (ok : DiskOk disk) (hm : Mounted fs disk) (habsent : ∀ j, ¬ FileAt disk name j)
    (hroom : ∃ i < numDirEntries, (entryAt disk i).inUse = false) (junk : ℕ → Image) {size : Int} (h0 : 0 ≤ size)
    (hmax : size ≤ sectorSize) :
    ∃ disk' i w, fs.create junk disk name size = .ok (true, disk') ∧ Preserves disk disk' (fun _ => True) ∧
      Added disk disk' name size i w ∧ IsFirst (fun x => marked disk x) w ∧
      (size = 0 → (headerOf disk' i).sectors = []) ∧ (0 < size → ∃ d < numSectors,
        (headerOf disk' i).sectors = [(d : Int)] ∧ IsFirst (fun x => marked disk x ∨ x = w) d) := by
  have hmax' : size ≤ maxFileSize := by
    simp only [sectorSize, maxFileSize, numDirect] at hmax ⊢
    omega
  rcases create_cases ok hm junk name size with
    ⟨-, hrefused⟩ | ⟨-, t, hsize, hsame, i, hi, hu, w, hw, hfree, hbelow, b, hbits, hset, hcreate⟩
  · exact absurd hrefused (create_not_refused ok habsent hroom)
  · have hset' : ∀ x < numSectors, (b.bit x = true ↔ marked disk x ∨ x = w) := by
      intro x hx
      rw [hset x hx]
      unfold marked
      simp only [Int.toNat_natCast, Int.natCast_nonneg, true_and, Nat.cast_lt, hx]
    have hclear : ∃ x < numSectors, b.bit x = false := by
      obtain ⟨x, hx, hne, hnot⟩ := exists_free_ne ok w
      refine ⟨x, hx, ?_⟩
      rw [Bool.eq_false_iff, ne_eq, hset' x hx, not_or]
      exact ⟨hnot, hne⟩
    have hroom : divRoundUp size sectorSize ≤ b.clearCount := by
      obtain ⟨x, hx, hbit⟩ := hclear
      have hcount : b.clearCount ≠ 0 := by
        unfold BitMap.clearCount
        rw [Nat.count_ne_iff_exists, hbits, Int.toNat_natCast]
        exact ⟨x, hx, hbit⟩
      have hround : divRoundUp size sectorSize = (size + 127) / 128 := divRoundUp_of_nonneg h0
      rw [hround]
      simp only [sectorSize] at hmax
      omega
    obtain ⟨g, c, halloc, hshaped, -, -, hrange, hbits', -, -⟩ :=
      FileHeader.allocate_ok (FileHeader.ofImage (junk 4)) b size h0 hmax' hroom
    obtain ⟨disk', hrun, hadded, hat⟩ :=
      createFile_added ok hm junk hsize hsame habsent hi hu hw hfree hbits halloc
    rw [← hcreate] at hrun
    obtain ⟨r, disk₁, hrun₁, hpres⟩ := create_spec ok hm junk name h0 hmax'
    rw [hrun] at hrun₁
    cases hrun₁
    have hsectors : (headerOf disk' i).sectors = g.sectors := by
      unfold headerOf
      rw [hadded.entry, Int.toNat_natCast, hat]
      exact (FileHeader.ofImage_image hshaped (fun x hx => ⟨(hrange x hx).1, hbits ▸ (hrange x hx).2.1⟩) _).2.1
    obtain ⟨hempty, hdata⟩ := allocate_small h0 hmax hbits hclear halloc
    refine ⟨disk', i, w, hrun, hpres, hadded, ⟨hfree, hbelow⟩, fun hz => hsectors.trans (hempty hz), fun hpos => ?_⟩
    obtain ⟨d, hd, hgd, hfirst⟩ := hdata hpos
    exact ⟨d, hd, hsectors.trans hgd, fun htaken => hfirst.free ((hset' d hd).mpr htaken),
      fun x hx => (hset' x (by omega)).mp (hfirst.below x hx)⟩

theorem Added.marked_iff {size : Int} {i w : ℕ} (h : Added disk disk' name size i w) (ok : DiskOk disk)
    (hpres : Preserves disk disk' fun _ => True) (x : Int) :
    marked disk' x ↔ marked disk x ∨ x ∈ ownSectors disk' i := by
  have hsystem : systemSectors disk' = systemSectors disk := by
    unfold systemSectors
    rw [hpres.mapHeader, hpres.dirHeader]
  have hown : ∀ j < numDirEntries, j ≠ i → ownSectors disk' j = ownSectors disk j := by
    intro j hj hji
    cases hu : (entryAt disk j).inUse with
    | true => exact (hpres.kept j hj hu trivial).ownSectors_eq
    | false => rw [ownSectors_of_unused hu, ownSectors_of_unused ((h.others j hj hji).inUse.trans hu)]
  rw [hpres.ok.exact.marked_iff, ok.exact.marked_iff, Ledger.mem_owned, Ledger.mem_owned, hsystem, or_assoc]
  refine or_congr_right ⟨?_, ?_⟩
  · rintro ⟨j, hj, hx⟩
    by_cases hji : j = i
    · rw [hji] at hx
      exact Or.inr hx
    · rw [hown j hj hji] at hx
      exact Or.inl ⟨j, hj, hx⟩
  · rintro (⟨j, hj, hx⟩ | hx)
    · have hji : j ≠ i := by
        rintro rfl
        rw [ownSectors_of_unused h.unused] at hx
        cases hx
      exact ⟨j, hj, by rwa [hown j hj hji]⟩
    · exact ⟨i, h.lt, hx⟩

theorem marked_of_unused (ok : DiskOk disk) (hunused : ∀ j < numDirEntries, (entryAt disk j).inUse = false) (x : Int) :
    marked disk x ↔ x ∈ systemSectors disk := by
  rw [ok.exact.marked_iff, Ledger.mem_owned]
  refine ⟨?_, Or.inl⟩
  rintro (hx | ⟨j, hj, hx⟩)
  · exact hx
  · rw [ownSectors_of_unused (hunused j hj)] at hx
    cases hx

end Fresh

namespace OpenState
variable {s : OpenState} {name : Image}

theorem Reached.create (h : s.Reached) (habsent : ∀ j, ¬ FileAt s.disk name j)
    (hroom : ∃ i < numDirEntries, (entryAt s.disk i).inUse = false) (junk : ℕ → Image) (size : Int) (h0 : 0 ≤ size)
    (hmax : size ≤ sectorSize) :
    ∃ disk' i w, Reached ⟨{ s.toFsState with disk := disk' }, s.removed⟩ ∧ Preserves s.disk disk' (fun _ => True) ∧
      Added s.disk disk' name size i w ∧ IsFirst (fun x => marked s.disk x) w ∧
      (size = 0 → (headerOf disk' i).sectors = []) ∧ (0 < size → ∃ d < numSectors,
        (headerOf disk' i).sectors = [(d : Int)] ∧ IsFirst (fun x => marked s.disk x ∨ x = w) d) := by
  obtain ⟨disk', i, w, hrun, hrest⟩ := create_small h.inv.ok h.inv.mounted habsent hroom junk h0 hmax
  refine ⟨disk', i, w, Reachable.next (l := (junk, .create name size)) h ⟨?_, nofun⟩ ?_, hrest⟩
  · intro name' size' hop
    cases hop
    simp only [sectorSize, maxFileSize, numDirect] at hmax ⊢
    omega
  · simp only [OpenState.step, FsState.step, hrun, ok_bind, pure_eq_ok]

/-- The only file on the disk has the header `w` and the data sector `d`, and descriptor 0 is open on it; before it was
created the disk was `disk`. -/
structure OneFile (s : OpenState) (disk : Disk) (name : Image) (i w d : ℕ) : Prop where
  reached : s.Reached
  present : s.removed 0 = false
  ok : DiskOk disk
  unused : ∀ j < numDirEntries, (entryAt disk j).inUse = false
  preserves : Preserves disk s.disk fun _ => True
  added : Added disk s.disk name sectorSize i w
  header : IsFirst (fun x => marked disk x) w
  data : IsFirst (fun x => marked disk x ∨ x = w) d
  lt : d < numSectors
  sectors : (headerOf s.disk i).sectors = [(d : Int)]
  handle : s.handles 0 = some ⟨(w : Int), ⟨headerOf s.disk i, 0⟩⟩

theorem exists_oneFile (name : Image) : ∃ s disk i w d, OneFile s disk name i w d := by
  obtain ⟨fs, disk, hformat, ok, hm, hunused⟩ := format_spec (fun _ _ => 0) fun _ _ => 0
  let start : OpenState := ⟨⟨fs, disk, fun _ => none⟩, fun _ => false⟩
  have hstart : start.Reached := .start ⟨_, _, hformat, rfl⟩
  have habsent : ∀ j, ¬ FileAt disk name j := by
    intro j hfile
    have hu := hfile.inUse
    rw [hunused j hfile.lt] at hu
    cases hu
  obtain ⟨disk', i, w, hreached, hpres, hadded, hheader, -, hdata⟩ :=
    hstart.create habsent ⟨0, by decide, hunused 0 (by decide)⟩ (fun _ _ => 0) sectorSize (by decide) le_rfl
  obtain ⟨d, hd, hsectors, hfirst⟩ := hdata (by decide)
  have hm' : Mounted fs disk' := hreached.inv.mounted
  refine ⟨⟨⟨fs, disk', Function.update (fun _ => none) 0 (some ⟨(w : Int), ⟨headerOf disk' i, 0⟩⟩)⟩,
    Function.update (fun _ => false) 0 false⟩, disk, i, w, d, ?_, rfl, ok, hunused, hpres, hadded, hheader, hfirst, hd,
    hsectors, rfl⟩
  refine Reachable.next (l := (fun _ _ => 0, .openFile name 0)) hreached ⟨nofun, nofun⟩ ?_
  have hopen := hadded.openFile ok hm fun _ _ => 0
  rcases openFile_spec hpres.ok.dirOk hm'.dir (fun _ _ => 0) name with ⟨-, hnone, -⟩ | ⟨j, hfile, hlook, hsome⟩
  · rw [hnone] at hopen
    cases hopen
  · obtain rfl := hpres.ok.names i hadded.lt j hfile.lt hadded.inUse hfile.inUse (hadded.key.trans hfile.key.symm)
    rw [hadded.entry] at hlook
    simp only [OpenState.step, FsState.step, start, hlook, hsome, ok_bind, pure_eq_ok, Option.map_some]

/-- The file is removed and two empty ones are created: the header of the second is where the data of the removed one
was. -/
theorem OneFile.removed {disk : Disk} {first : Image} {i w d : ℕ} (h : OneFile s disk first i w d)
    (second third : Image) (hne : cstring fileNameMaxLen second ≠ cstring fileNameMaxLen third) :
    ∃ (s' : OpenState) (j : ℕ), s'.Reached ∧ s'.removed 0 = true ∧ s'.handles = s.handles ∧ j < numDirEntries ∧
      (entryAt s'.disk j).inUse = true ∧ (entryAt s'.disk j).sector = d := by
  have hfirst : FileAt s.disk first i := h.added.fileAt
  have hinv := h.reached.inv
  rcases remove_cases hinv.ok hinv.mounted (fun _ _ => 0) first with
    ⟨-, -, hnone⟩ | ⟨j, disk₂, hfile, hlook, hrun, -, hothers, hgone, hpres⟩
  · exact absurd hfirst (hnone i)
  obtain rfl := hinv.ok.names i hfirst.lt j hfile.lt hfirst.inUse hfile.inUse (hfirst.key.trans hfile.key.symm)
  have hentry : ∀ j, entryAt disk₂ j = Directory.storedEntry (dirHeader s.disk) disk₂ j := by
    intro j
    unfold entryAt
    rw [hpres.dirHeader]
  have hunused : ∀ j < numDirEntries, (entryAt disk₂ j).inUse = false := by
    intro j hj
    rw [hentry]
    by_cases hji : j = i
    · rw [hji]
      exact hgone
    · rw [(hothers j hj hji).inUse, (h.added.others j hj hji).inUse]
      exact h.unused j hj
  have habsent : ∀ name j, ¬ FileAt disk₂ name j := by
    intro name j hfile
    have hu := hfile.inUse
    rw [hunused j hfile.lt] at hu
    cases hu
  have hmarked : ∀ x, marked disk₂ x ↔ marked disk x := by
    intro x
    rw [marked_of_unused hpres.ok hunused, marked_of_unused h.ok h.unused]
    unfold systemSectors
    rw [hpres.mapHeader, hpres.dirHeader, h.preserves.mapHeader, h.preserves.dirHeader]
  let gone : ℕ → Bool := fun fd => s.removed fd || (s.handles fd).any fun hd => hd.sector = (w : Int)
  have hreached₂ : Reached ⟨{ s.toFsState with disk := disk₂ }, gone⟩ := by
    refine Reachable.next (l := (fun _ _ => 0, .remove first)) h.reached ⟨nofun, nofun⟩ ?_
    rw [h.added.entry] at hlook
    simp only [OpenState.step, hlook, hrun, ok_bind, pure_eq_ok, gone]
  obtain ⟨disk₃, i₃, w₃, hreached₃, hpres₃, hadded₃, hheader₃, hempty₃, -⟩ := hreached₂.create (habsent second)
    ⟨0, by decide, hunused 0 (by decide)⟩ (fun _ _ => 0) 0 le_rfl (by decide)
  have hw : w₃ = w := hheader₃.unique h.header (fun x _ => hmarked x) hadded₃.sector h.added.sector
  have hmarked₃ : ∀ x : ℕ, marked disk₃ x ↔ marked disk x ∨ x = w := by
    intro x
    rw [hadded₃.marked_iff hpres.ok hpres₃, hmarked, ownSectors_of_inUse hadded₃.inUse, hempty₃ rfl, hadded₃.entry, hw,
      List.mem_singleton, Int.natCast_inj]
  have hroom₃ : ∃ j < numDirEntries, (entryAt disk₃ j).inUse = false := by
    obtain ⟨j, hj, hji⟩ : ∃ j < numDirEntries, j ≠ i₃ := by
      by_cases hi : i₃ = 0
      · exact ⟨1, by decide, by omega⟩
      · exact ⟨0, by decide, by omega⟩
    exact ⟨j, hj, (hadded₃.others j hj hji).inUse.trans (hunused j hj)⟩
  obtain ⟨disk₄, i₄, w₄, hreached₄, -, hadded₄, hheader₄, -, -⟩ := hreached₃.create
    (fun j hfile => habsent third j ((hadded₃.fileAt_iff hne j).mp hfile)) hroom₃ (fun _ _ => 0) 0 le_rfl
    (by decide)
  have hd : w₄ = d := hheader₄.unique h.data (fun x _ => hmarked₃ x) hadded₄.sector h.lt
  refine ⟨_, i₄, hreached₄, ?_, rfl, hadded₄.lt, hadded₄.inUse, hadded₄.entry.trans (congrArg Int.ofNat hd)⟩
  simp [gone, h.handle]

/-- One byte is written through descriptor 0. -/
theorem write_byte {disk : Disk} {i d : ℕ} (hwf : (headerOf disk i).WellFormed)
    (hsize : (headerOf disk i).numBytes = sectorSize) (hsectors : (headerOf disk i).sectors = [(d : Int)]) {w : Int}
    (hfd : s.handles 0 = some ⟨w, ⟨headerOf disk i, 0⟩⟩) (src : Image) :
    ∃ s', s.step (fun _ _ => 0) (.write 0 src 1) = .ok s' ∧ s'.disk d 0 = src 0 := by
  have hlen : (headerOf disk i).numSectors.toNat = 1 := by
    have := congrArg List.length hsectors
    simpa [FileHeader.sectors] using this
  have hdata : (headerOf disk i).dataSectors 0 = d := by
    have := congrArg List.head? hsectors
    simpa [FileHeader.sectors, hlen] using this
  obtain ⟨disk', hrun, hbytes, -⟩ := writeAt_eq hwf s.disk (fun _ => 0) src 1 0 le_rfl (by decide)
  have hone : transferred (headerOf disk i) 1 0 = 1 := transferred_whole (by decide) (by rw [hsize]; decide)
  have hbyte := hbytes 0 (by rw [hsize]; decide)
  rw [hone] at hrun hbyte
  refine ⟨⟨⟨s.fs, disk', Function.update s.handles 0 (some ⟨w, ⟨headerOf disk i, 0 + 1⟩⟩)⟩, s.removed⟩, ?_, ?_⟩
  · simp only [OpenState.step, FsState.step, FsState.onFile, hfd, OpenFile.write, hrun, ok_bind, pure_eq_ok]
  · simpa [FileHeader.byteAt, hdata] using hbyte

end OpenState

/-- In a careful run no write leaves the sectors of its file, and the disk stays in order. -/
theorem handles_write_own {s s' : OpenState} (h : s.Reached) {call : (ℕ → Image) × FsOp} (hcareful : s.Careful call)
    (hs : s.step call.1 call.2 = .ok s') :
    Consistent s'.disk ∧ ∀ fd, call.2.written = some fd → s.WritesOwn fd s' := by
  obtain ⟨hinv, hown⟩ := h.inv.step hcareful hs
  exact ⟨hinv.ok.consistent, hown⟩

theorem handles_write_own_present : ∃ (s s' : OpenState) (d : ℕ) (src : Image), s.Reached ∧
    s.step (fun _ _ => 0) (.write 0 src 1) = .ok s' ∧ s'.disk d ≠ s.disk d ∧ Consistent s'.disk ∧ s.WritesOwn 0 s' := by
  obtain ⟨s, disk, i, w, d, h⟩ := OpenState.exists_oneFile fun _ => 97
  obtain ⟨s', hs, hbyte⟩ := OpenState.write_byte (h.reached.inv.ok.file_wellFormed h.added.lt h.added.inUse)
    (h.added.numBytes (by decide) (by decide)) h.sectors h.handle fun _ => s.disk d 0 + 1
  have hcareful : s.Careful (fun _ _ => 0, .write 0 (fun _ => s.disk d 0 + 1) 1) := by
    refine ⟨nofun, fun fd hfd hd hhd => Or.inl ?_⟩
    cases hfd
    exact h.present
  obtain ⟨hok, hown⟩ := handles_write_own h.reached hcareful hs
  refine ⟨s, s', d, _, h.reached, hs, fun heq => ?_, hok, hown 0 rfl⟩
  rw [heq] at hbyte
  exact absurd hbyte (by simp)

/-- A file is removed while it is open, and its data sector becomes the header of another file: what is written through
the old handle lands in that header. -/
theorem stale_handle_overwrites_header : ∃ (s s' : OpenState) (src : Image) (j : ℕ), s.Reached ∧
    s.step (fun _ _ => 0) (.write 0 src 1) = .ok s' ∧ s.removed 0 = true ∧ j < numDirEntries ∧
    (entryAt s.disk j).inUse = true ∧ s'.disk (entryAt s.disk j).sector.toNat ≠ s.disk (entryAt s.disk j).sector.toNat ∧
    ¬ s.WritesOwn 0 s' := by
  obtain ⟨s, disk, i, w, d, h⟩ := OpenState.exists_oneFile fun _ => 97
  obtain ⟨s₁, j, hreached, hremoved, hhandles, hj, hu, hsector⟩ :=
    h.removed (fun _ => 98) (fun _ => 99) (by decide)
  obtain ⟨s', hs, hbyte⟩ := OpenState.write_byte (s := s₁)
    (h.reached.inv.ok.file_wellFormed h.added.lt h.added.inUse) (h.added.numBytes (by decide) (by decide)) h.sectors
    (hhandles ▸ h.handle) fun _ => s₁.disk d 0 + 1
  have hchanged : s'.disk d ≠ s₁.disk d := by
    intro heq
    rw [heq] at hbyte
    exact absurd hbyte (by simp)
  refine ⟨s₁, s', _, j, hreached, hs, hremoved, hj, hu, by rwa [hsector, Int.toNat_natCast], fun hown => ?_⟩
  obtain ⟨hd, -, -, -, hfiles⟩ := hown d hchanged
  have hpresent := (hfiles j hj (by rw [ownSectors_of_inUse hu, hsector]; exact List.mem_cons_self)).1
  rw [hremoved] at hpresent
  cases hpresent

end Nachos
