import Nachos.Userprog.CreateSteps

/-! # Two `Create` system calls at a time

If no call begins while the other holds a copy of the directory, and none goes on to the free map while the other
holds a copy of that, the two calls come to what they would have come to one after the other, and both files are
there. If both take their copies before one of them writes its own back, the file created first is lost. -/
set_option autoImplicit false

namespace Nachos
open Buffer Execution Interleaving

/-- Both names are found, at headers of their own; the headers' and the data sectors are apart and marked. -/
def TwoCreates.BothFound (c : TwoCreates) (disk : Disk) : Prop :=
  ∃ i : Bool → ℕ, (∀ t junk, c.fs.lookup junk disk (c.name t) = .ok (entryAt disk (i t)).sector) ∧
    (∀ t, (entryAt disk (i t)).inUse = true ∧ (entryAt disk (i t)).sector ≠ -1) ∧
    (∀ x ∈ ownSectors disk (i false), x ∉ ownSectors disk (i true)) ∧
    ∀ t, ∀ x ∈ ownSectors disk (i t), marked disk x

namespace TwoCreates

variable {c : TwoCreates} {t : Bool} {call call' : CreateCall} {disk disk' : Disk} {buf buf' : Image}

/-! ## The calls one after the other -/

/-- Undisturbed the calls would end as if one had been made after the other. -/
inductive Ordered (c : TwoCreates) (disk₀ : Disk) (s : CreateState) : Prop
  | start (h : s.Start disk₀)
  /-- Only one call has begun. -/
  | alone (t : Bool) (begun : s.call t ≠ .idle) (other : s.call (! t) = .idle)
      (mine : c.resume t s.disk (s.call t) = c.create t disk₀)
  /-- The second call has begun, and the first still writes the free map. -/
  | behind (t : Bool) {p : Request Unit} {disk₁ : Disk} (hcall : s.call t = .updatingFreeMap p)
      (hrun : p.run s.disk = .ok ((), disk₁)) (hfirst : c.create t disk₀ = .ok (true, disk₁))
      (hother : (∃ n, s.call (! t) = .naming n) ∨ ∃ q, s.call (! t) = .fetchingDirectory q)
      (hsecond : c.resume (! t) disk₁ (s.call (! t)) = c.create (! t) disk₁)
  | after (t : Bool) {r : Bool} {disk₁ : Disk} (hcall : s.call t = .returned r)
      (hfirst : c.create t disk₀ = .ok (r, disk₁))
      (hsecond : c.resume (! t) s.disk (s.call (! t)) = c.create (! t) disk₁)

structure Inv (c : TwoCreates) (disk₀ : Disk) (s : CreateState) : Prop where
  ordered : c.Ordered disk₀ s
  named : ∀ t, Named (c.name t) s.buf (s.call t)
  bounded : ∀ t, c.Bounded (s.call t)

variable {s s' : CreateState} {u : Bool} {disk₀ : Disk}

/-- What a step of call `u` leaves as it was. -/
structure Moves (c : TwoCreates) (u : Bool) (s s' : CreateState) : Prop where
  other : s'.call (! u) = s.call (! u)
  resume : c.resume u s'.disk (s'.call u) = c.resume u s.disk (s.call u)
  named : Named (c.name u) s'.buf (s'.call u)
  bounded : c.Bounded (s'.call u)
  begun : s'.call u ≠ .idle

theorem Inv.moves (hinv : c.Inv disk₀ s) (hdir : c.fs.directoryFile.hdr.WellFormed)
    (hmap : c.fs.freeMapFile.hdr.WellFormed) (h : c.step u s = some s') : c.Moves u s s' := by
  rcases step_cases h with ⟨call, disk, hrequest, rfl⟩ | ⟨buf, call, hproceed, rfl⟩
  · refine ⟨put_call_not _ _ _ _ _, ?_, ?_, ?_, ?_⟩
    all_goals rw [put_call]
    · exact hrequest.resume
    · exact hrequest.named (hinv.named u)
    · exact hrequest.bounded (hinv.bounded u)
    · exact hrequest.begun
  · refine ⟨put_call_not _ _ _ _ _, ?_, ?_, ?_, ?_⟩
    all_goals rw [put_call]
    · exact hproceed.resume (hinv.named u)
    · exact hproceed.named (hinv.named u)
    · exact hproceed.bounded hdir hmap
    · exact hproceed.begun

theorem step_idle (h : c.step u s = some s') (hidle : s.call u = .idle) :
    s' = s.put u s.disk s.buf (.naming 0) := by
  rcases step_cases h with ⟨call, disk, hrequest, -⟩ | ⟨buf, call, hproceed, rfl⟩
  · rw [hidle] at hrequest
    cases hrequest
  · rw [hidle] at hproceed
    cases hproceed
    rfl

/-- A call begins while the other writes the free map, or after it has returned. -/
theorem Ordered.begins (hcreate : ∃ r disk₁, c.create t disk₀ = .ok (r, disk₁)) (hbegun : s.call t ≠ .idle)
    (hfree : (s.call t).holdsDirectory = false) (hmine : c.resume t s.disk (s.call t) = c.create t disk₀) :
    c.Ordered disk₀ (s.put (! t) s.disk s.buf (.naming 0)) := by
  obtain ⟨r, disk₁, hfirst⟩ := hcreate
  have hcall : (s.put (! t) s.disk s.buf (.naming 0)).call t = s.call t := put_not_call _ _ _ _ _
  generalize hphase : s.call t = phase at hbegun hfree hmine
  rw [hphase] at hcall
  cases phase with
  | idle => exact absurd rfl hbegun
  | naming n => cases hfree
  | fetchingDirectory p => cases hfree
  | fetchingFreeMap d p => cases hfree
  | updatingDirectory b p => cases hfree
  | updatingFreeMap p =>
    rw [hfirst] at hmine
    obtain ⟨⟨_, disk₂⟩, hrun, heq⟩ := bind_eq_ok.mp hmine
    cases heq
    refine .behind t hcall hrun hfirst (Or.inl ⟨0, put_call _ _ _ _ _⟩) ?_
    rw [put_call]
    rfl
  | returned success =>
    refine .after t hcall hmine.symm ?_
    rw [put_call]
    rfl

/-- The first call goes on writing the free map, or has written it. -/
theorem Ordered.flushes {p : Request Unit} {disk₁ : Disk} (hcall : s.call t = .updatingFreeMap p)
    (hrun : p.run s.disk = .ok ((), disk₁)) (hfirst : c.create t disk₀ = .ok (true, disk₁))
    (hother : (∃ n, s.call (! t) = .naming n) ∨ ∃ q, s.call (! t) = .fetchingDirectory q)
    (hsecond : c.resume (! t) disk₁ (s.call (! t)) = c.create (! t) disk₁) (h : c.step t s = some s') :
    c.Ordered disk₀ s' ∧ s'.buf = s.buf := by
  rcases step_cases h with ⟨call, disk, hrequest, rfl⟩ | ⟨buf, call, hproceed, rfl⟩
  · rw [hcall] at hrequest
    cases hrequest with
    | writeFreeMap haccess =>
      refine ⟨.behind t (put_call _ _ _ _ _) ((Program.run_access haccess).trans hrun) hfirst ?_ ?_, rfl⟩
      · rw [put_call_not]
        exact hother
      · rw [put_call_not]
        exact hsecond
  · rw [hcall] at hproceed
    cases hproceed with
    | finish =>
      cases hrun
      refine ⟨.after t (put_call _ _ _ _ _) hfirst ?_, rfl⟩
      rw [put_call_not]
      exact hsecond

/-- The second call reads the directory while the first writes the free map. -/
theorem Ordered.trails {p : Request Unit} {disk₁ : Disk}
    (hdisjoint : ∀ i, Blocking.OnFile c.fs.directoryFile.hdr i → ¬ Blocking.OnFile c.fs.freeMapFile.hdr i)
    (hinv : c.Inv disk₀ s) (ha : s.apart (! t) = true) (hcall : s.call t = .updatingFreeMap p)
    (hrun : p.run s.disk = .ok ((), disk₁)) (hfirst : c.create t disk₀ = .ok (true, disk₁))
    (hother : (∃ n, s.call (! t) = .naming n) ∨ ∃ q, s.call (! t) = .fetchingDirectory q)
    (hsecond : c.resume (! t) disk₁ (s.call (! t)) = c.create (! t) disk₁) (h : c.step (! t) s = some s') :
    c.Ordered disk₀ s' := by
  have hfirst_bounded := hinv.bounded t
  rw [hcall] at hfirst_bounded
  have hsame : ∀ i, Blocking.OnFile c.fs.directoryFile.hdr i → disk₁ i = s.disk i :=
    fun i hi => Program.Uses.frame hfirst_bounded hrun (hdisjoint i hi)
  have hsecond_bounded := hinv.bounded (! t)
  have hsecond_named := hinv.named (! t)
  rcases step_cases h with ⟨call, disk, hrequest, rfl⟩ | ⟨buf, call, hproceed, rfl⟩
  · rcases hother with ⟨n, hn⟩ | ⟨q, hq⟩
    · rw [hn] at hrequest
      cases hrequest
    · rw [hq] at hrequest hsecond_bounded hsecond
      cases hrequest with
      | directory haccess =>
        obtain ⟨rfl, hsteps⟩ := Program.Uses.access_reads hsecond_bounded haccess
        refine .behind t ((put_not_call _ _ _ _ _).trans hcall) hrun hfirst
          (Or.inr ⟨_, put_call _ _ _ _ _⟩) ?_
        rw [put_call]
        rw [← hsecond]
        simp only [TwoCreates.resume, hsteps disk₁ hsame]
  · rcases hother with ⟨n, hn⟩ | ⟨q, hq⟩
    · have hnext : (∃ n, call = .naming n) ∨ ∃ q, call = .fetchingDirectory q := by
        rw [hn] at hproceed
        cases hproceed with
        | byte h => exact Or.inl ⟨_, rfl⟩
        | lastByte h => exact Or.inr ⟨_, rfl⟩
      refine .behind t ((put_not_call _ _ _ _ _).trans hcall) hrun hfirst ?_ ?_
      · rw [put_call]
        exact hnext
      · rw [put_call]
        rw [← hsecond]
        exact hproceed.resume hsecond_named
    · rw [hq] at hproceed
      cases hproceed with
      | lookUp d =>
        unfold CreateState.apart at ha
        rw [hq] at ha
        simp only [Bool.not_not, hcall] at ha
        cases ha

theorem Inv.step (ok : DiskOk disk₀) (hm : Mounted c.fs disk₀) (hinv : c.Inv disk₀ s) (ha : s.apart u = true)
    (h : c.step u s = some s') : c.Inv disk₀ s' := by
  have hmoves := hinv.moves (hm.dir ▸ ok.dir_wellFormed) (hm.map ▸ ok.map_wellFormed) h
  have hdisjoint : ∀ i, Blocking.OnFile c.fs.directoryFile.hdr i → ¬ Blocking.OnFile c.fs.freeMapFile.hdr i := by
    intro i hdir hmap
    unfold Blocking.OnFile at hdir hmap
    rw [hm.dir] at hdir
    rw [hm.map] at hmap
    exact ok.map_dir_disjoint hmap hdir
  have hboth : c.Ordered disk₀ s' ∧ Named (c.name (! u)) s'.buf (s.call (! u)) := by
    have hnamed := hinv.named (! u)
    cases hinv.ordered with
    | start hs =>
      obtain ⟨hdisk, hidle⟩ := hs
      refine ⟨.alone u hmoves.begun (hmoves.other.trans (hidle (! u))) (hmoves.resume.trans ?_), ?_⟩
      · rw [hidle u, hdisk]
        rfl
      · rw [hidle (! u)]
        trivial
    | alone t hbegun hidle hmine =>
      rcases Bool.eq_or_eq_not u t with rfl | rfl
      · refine ⟨.alone u hmoves.begun (hmoves.other.trans hidle) (hmoves.resume.trans hmine), ?_⟩
        rw [hidle]
        trivial
      · have hs' := step_idle h hidle
        subst hs'
        refine ⟨Ordered.begins ?_ hbegun ?_ hmine, hnamed⟩
        · obtain ⟨r, disk₁, hrun, -⟩ := create_spec ok hm (c.junk t) (c.name t) (le_refl 0) (by decide)
          exact ⟨r, disk₁, hrun⟩
        · unfold CreateState.apart at ha
          rw [hidle] at ha
          simpa only [Bool.not_not, Bool.not_eq_true'] using ha
    | behind t hcall hrun hfirst hother hsecond =>
      rcases Bool.eq_or_eq_not u t with rfl | rfl
      · obtain ⟨hordered, hbuf⟩ := Ordered.flushes hcall hrun hfirst hother hsecond h
        exact ⟨hordered, hbuf ▸ hnamed⟩
      · refine ⟨Ordered.trails hdisjoint hinv ha hcall hrun hfirst hother hsecond h, ?_⟩
        rw [Bool.not_not, hcall]
        trivial
    | after t hcall hfirst hsecond =>
      rcases Bool.eq_or_eq_not u t with rfl | rfl
      · rcases step_cases h with ⟨call, disk, hrequest, -⟩ | ⟨buf, call, hproceed, -⟩
        · rw [hcall] at hrequest
          cases hrequest
        · rw [hcall] at hproceed
          cases hproceed
      · have hother := hmoves.other
        rw [Bool.not_not] at hother ⊢
        refine ⟨.after t (hother.trans hcall) hfirst (hmoves.resume.trans hsecond), ?_⟩
        rw [hcall]
        trivial
  refine ⟨hboth.1, fun v => ?_, fun v => ?_⟩
  · rcases Bool.eq_or_eq_not v u with rfl | rfl
    · exact hmoves.named
    · rw [hmoves.other]
      exact hboth.2
  · rcases Bool.eq_or_eq_not v u with rfl | rfl
    · exact hmoves.bounded
    · rw [hmoves.other]
      exact hinv.bounded _

/-! ## Both files are there -/

theorem lookup_of_fileAt (ok : DirOk disk) (hdir : c.fs.directoryFile.hdr = dirHeader disk) {name : Image} {i : ℕ}
    (hfile : FileAt disk name i) (junk : ℕ → Image) :
    c.fs.lookup junk disk name = .ok (entryAt disk i).sector := by
  obtain ⟨sector, hlook, ⟨-, hnone⟩ | ⟨j, hj, rfl⟩⟩ := lookup_spec ok hdir junk name
  · exact absurd hfile (hnone i)
  · obtain rfl := ok.names i hfile.lt j hj.lt hfile.inUse hj.inUse (hfile.key.trans hj.key.symm)
    exact hlook

/-- One successful call after the other. -/
theorem bothFound_of_creates (ok : DiskOk disk₀) (hm : Mounted c.fs disk₀)
    (hne : cstring fileNameMaxLen (c.name (! t)) ≠ cstring fileNameMaxLen (c.name t)) {disk₁ : Disk}
    (hfirst : c.create t disk₀ = .ok (true, disk₁)) (hsecond : c.create (! t) disk₁ = .ok (true, disk)) :
    c.BothFound disk := by
  have hpreserves : ∀ v d d', DiskOk d → Mounted c.fs d → c.create v d = .ok (true, d') →
      DiskOk d' ∧ Mounted c.fs d' ∧ ∃ i w, Added d d' (c.name v) 0 i w := by
    intro v d d' okd hmd hrun
    obtain ⟨r, d'', hrun', hpres⟩ := create_spec okd hmd (c.junk v) (c.name v) (le_refl 0) (by decide)
    cases hrun.symm.trans hrun'
    refine ⟨hpres.ok, ⟨hmd.map.trans hpres.mapHeader.symm, hmd.dir.trans hpres.dirHeader.symm⟩, ?_⟩
    rcases create_effect okd hmd hrun with ⟨hfalse, -⟩ | ⟨-, hadded⟩
    · cases hfalse
    · exact hadded
  obtain ⟨ok₁, hm₁, i, w, hadded₁⟩ := hpreserves t disk₀ disk₁ ok hm hfirst
  obtain ⟨ok₂, hm₂, j, w', hadded₂⟩ := hpreserves (! t) disk₁ disk ok₁ hm₁ hsecond
  have hfiles : ∀ v, ∃ k, FileAt disk (c.name v) k := by
    intro v
    rcases Bool.eq_or_eq_not v t with rfl | rfl
    · exact ⟨i, (hadded₂.fileAt_iff hne i).mpr hadded₁.fileAt⟩
    · exact ⟨j, hadded₂.fileAt⟩
  choose k hk using hfiles
  have hkeys : cstring fileNameMaxLen (c.name false) ≠ cstring fileNameMaxLen (c.name true) := by
    cases t with
    | false => exact hne.symm
    | true => exact hne
  have hapart : k false ≠ k true := by
    intro heq
    have hkey := (hk true).key
    rw [← heq, (hk false).key] at hkey
    exact hkeys hkey
  refine ⟨k, fun v junk => lookup_of_fileAt ok₂.dirOk hm₂.dir (hk v) junk, fun v => ⟨(hk v).inUse, ?_⟩, ?_, ?_⟩
  · have hrange := ok₂.sector_range (hk v).lt (hk v).inUse
    omega
  · exact fun x hx => ok₂.exact.slots_disjoint (hk false).lt (hk true).lt hapart hx
  · exact fun v x hx => (ok₂.exact.marked_iff x).mpr (Ledger.mem_owned.mpr (Or.inr ⟨k v, (hk v).lt, hx⟩))

/-- The states of the two calls, from a given disk on. -/
def Reached (c : TwoCreates) (disk₀ : Disk) (allowed : CreateState → Bool → Bool) : CreateState → Prop :=
  Reachable (CreateState.Start disk₀) (fun s t s' => c.step t s = some s') fun s t => allowed s t = true

theorem Reached.inv (ok : DiskOk disk₀) (hm : Mounted c.fs disk₀) (h : c.Reached disk₀ CreateState.apart s) :
    c.Inv disk₀ s := by
  refine Reachable.invariant (c.Inv disk₀) (fun s hs => ⟨.start hs, fun t => ?_, fun t => ?_⟩)
    (fun s u s' hinv ha hstep => hinv.step ok hm ha hstep) h
  · rw [hs.2 t]
    trivial
  · rw [hs.2 t]
    trivial

/-! ## Runs of one call after the other -/

theorem Alone.other (h : c.Alone t s s') : s'.call (! t) = s.call (! t) := by
  induction h with
  | refl => rfl
  | tail _ hstep ih =>
    rcases step_cases hstep with ⟨call, disk, -, rfl⟩ | ⟨buf, call, -, rfl⟩
    · rw [put_call_not, ih]
    · rw [put_call_not, ih]

theorem Reached.alone {allowed : CreateState → Bool → Bool} (h : c.Reached disk₀ allowed s)
    (hrun : c.Alone t s s') (hallowed : ∀ s₁, s₁.call (! t) = s.call (! t) → allowed s₁ t = true) :
    c.Reached disk₀ allowed s' := by
  induction hrun with
  | refl => exact h
  | tail hrun hstep ih => exact .next ih (hallowed _ (Alone.other hrun)) hstep

theorem apart_of_done (h : s.call (! t) = .idle ∨ ∃ r, s.call (! t) = .returned r) : s.apart t = true := by
  unfold CreateState.apart
  rcases h with h | ⟨r, h⟩
  · rw [h]
    split
    · rfl
    · rfl
    · rfl
  · rw [h]
    split
    · rfl
    · rfl
    · rfl

/-- Entries are left for two files with the names of the calls. -/
structure Room (c : TwoCreates) (disk : Disk) : Prop where
  ok : DiskOk disk
  mounted : Mounted c.fs disk
  differ : cstring fileNameMaxLen (c.name false) ≠ cstring fileNameMaxLen (c.name true)
  absent : ∀ t j, ¬ FileAt disk (c.name t) j
  entries : ∃ i < numDirEntries, ∃ j < numDirEntries, i ≠ j ∧ (entryAt disk i).inUse = false ∧
    (entryAt disk j).inUse = false

theorem Room.creates (h : c.Room disk) :
    ∃ disk₁ disk₂, c.create false disk = .ok (true, disk₁) ∧ c.create true disk₁ = .ok (true, disk₂) := by
  obtain ⟨i, hi, j, hj, hij, hui, huj⟩ := h.entries
  obtain ⟨disk₁, hrun⟩ := create_succeeds h.ok h.mounted (h.absent false) ⟨i, hi, hui⟩ (c.junk false)
  obtain ⟨r, disk₂, hrun', hpres⟩ := create_spec h.ok h.mounted (c.junk false) (c.name false) (le_refl 0) (by decide)
  cases hrun.symm.trans hrun'
  rcases create_effect h.ok h.mounted hrun with ⟨hfalse, -⟩ | ⟨-, k, w, hadded⟩
  · cases hfalse
  · have hm₁ : Mounted c.fs disk₁ :=
      ⟨h.mounted.map.trans hpres.mapHeader.symm, h.mounted.dir.trans hpres.dirHeader.symm⟩
    have hleft : ∃ l < numDirEntries, (entryAt disk₁ l).inUse = false := by
      by_cases hik : i = k
      · exact ⟨j, hj, (hadded.others j hj (hik ▸ hij.symm)).inUse.trans huj⟩
      · exact ⟨i, hi, (hadded.others i hi hik).inUse.trans hui⟩
    obtain ⟨disk₂, hrun₂⟩ := create_succeeds hpres.ok hm₁
      (fun l hl => h.absent true l ((hadded.fileAt_iff h.differ l).mp hl)) hleft (c.junk true)
    exact ⟨disk₁, disk₂, hrun, hrun₂⟩

/-- Two calls with room for both, one after the other. -/
theorem Room.sequential (h : c.Room disk) :
    ∃ s, c.Reached disk CreateState.apart s ∧ ∀ t, s.call t = .returned true := by
  obtain ⟨disk₁, disk₂, hfirst, hsecond⟩ := h.creates
  have hstart : c.Reached disk CreateState.apart ⟨disk, fun _ => 0, fun _ => .idle⟩ :=
    Reachable.start ⟨rfl, fun _ => rfl⟩
  obtain ⟨buf₁, hrun₁⟩ := alone_returns (s := ⟨disk, fun _ => 0, fun _ => .idle⟩) rfl hfirst
  have hreached₁ := hstart.alone hrun₁ fun s₁ hs₁ => apart_of_done (Or.inl hs₁)
  obtain ⟨buf₂, hrun₂⟩ := alone_returns (t := true)
    (s := CreateState.put ⟨disk, fun _ => 0, fun _ => .idle⟩ false disk₁ buf₁ (.returned true)) rfl hsecond
  refine ⟨_, hreached₁.alone hrun₂ fun s₁ hs₁ => apart_of_done (Or.inr ⟨true, hs₁⟩), fun t => ?_⟩
  cases t with
  | false => rfl
  | true => rfl

end TwoCreates

/-- On a disk in order, calls that are kept apart and both report success have lost nothing. -/
theorem concurrent_creates_found {c : TwoCreates} {disk₀ : Disk} {s : CreateState} (ok : DiskOk disk₀)
    (hm : Mounted c.fs disk₀)
    (hne : cstring fileNameMaxLen (c.name false) ≠ cstring fileNameMaxLen (c.name true))
    (h : c.Reached disk₀ CreateState.apart s) (hdone : ∀ t, s.call t = .returned true) : c.BothFound s.disk := by
  cases (h.inv ok hm).ordered with
  | start hs => cases (hs.2 true).symm.trans (hdone true)
  | alone t _ hidle _ => cases hidle.symm.trans (hdone (! t))
  | behind t hcall => cases hcall.symm.trans (hdone t)
  | after t hcall hfirst hsecond =>
    cases hcall.symm.trans (hdone t)
    rw [hdone (! t)] at hsecond
    refine TwoCreates.bothFound_of_creates (t := t) ok hm ?_ hfirst hsecond.symm
    cases t with
    | false => exact hne.symm
    | true => exact hne

/-- The one-letter names `a` and `b`. -/
def letter (t : Bool) : Image := fun o => if o = 0 then (if t then 98 else 97) else 0

theorem letter_ne : cstring fileNameMaxLen (letter false) ≠ cstring fileNameMaxLen (letter true) := by decide

theorem room_formatted : ∃ c disk, TwoCreates.Room c disk ∧ c.name = letter := by
  obtain ⟨fs, disk, -, ok, hm, hempty⟩ := format_spec (fun _ _ => 0) fun _ _ => 0
  refine ⟨⟨fs, letter, fun _ _ _ => 0⟩, disk, ⟨ok, hm, letter_ne, fun t j hj => ?_, 0, by decide, 1, by decide,
    by decide, hempty 0 (by decide), hempty 1 (by decide)⟩, rfl⟩
  have hu := hj.inUse
  rw [hempty j hj.lt] at hu
  cases hu

theorem concurrent_creates_found_formatted : ∃ c disk₀ s, TwoCreates.Room c disk₀ ∧
    c.Reached disk₀ CreateState.apart s ∧ (∀ t, s.call t = .returned true) ∧ c.BothFound s.disk := by
  obtain ⟨c, disk₀, hroom, -⟩ := room_formatted
  obtain ⟨s, hreached, hdone⟩ := hroom.sequential
  exact ⟨c, disk₀, s, hroom, hreached, hdone,
    concurrent_creates_found hroom.ok hroom.mounted hroom.differ hreached hdone⟩

/-! ## Both calls take their copies first -/

namespace TwoCreates

variable {c : TwoCreates} {t : Bool} {disk disk₁ : Disk} {s : CreateState}

/-- A call with room for its file comes to its write-backs: the header is to go to sector `w`, and the entry `i` of
the copy of the directory has the name. -/
theorem alone_decides (ok : DiskOk s.disk) (hm : Mounted c.fs s.disk) (hidle : s.call t = .idle)
    (habsent : ∀ j, ¬ FileAt s.disk (c.name t) j) (hroom : ∃ i < numDirEntries, (entryAt s.disk i).inUse = false) :
    ∃ (buf' : Image) (d : Directory) (i w : ℕ) (g : FileHeader) (b : BitMap),
      cstring fileNameMaxLen buf' = cstring fileNameMaxLen (c.name t) ∧
      d.tableSize = numDirEntries ∧ (∀ j < numDirEntries, (d.table j).Same (entryAt s.disk j)) ∧
      w < numSectors ∧ b.numBits = (numSectors : ℕ) ∧
      c.Alone t s (s.put t s.disk buf' (.updatingDirectory b
        (c.writeBacks t w g (d.setEntry i ⟨true, w, strncpy fileNameMaxLen (d.table i).name buf'⟩)))) := by
  obtain ⟨buf', halone, hname⟩ := alone_begins (c := c) hidle
  obtain ⟨d, hd, hsize, hsame⟩ := fetchDirectory_spec ok.dirOk hm.dir (c.junk t)
  obtain ⟨b, hb, hbits, hset⟩ := fetchFreeMap_spec ok hm (c.junk t)
  rcases find_cases ok.dirOk hsize hsame (c.name t) with ⟨hfind, hidx, -⟩ | ⟨j, hfile, -⟩
  · rcases b.findFrom_spec 0 b.numBits.toNat (by omega) with ⟨-, hall⟩ | ⟨w, b₁, hw, hlt, -, -, hbits₁, -⟩
    · obtain ⟨x, hx, hfree⟩ := exists_free ok
      refine absurd ⟨by omega, by omega, ?_⟩ hfree
      rw [Int.toNat_natCast, ← hset x hx]
      exact hall x (by omega) (by omega)
    · have hw' : w < numSectors := by omega
      rcases d.addFrom_spec buf' w 0 d.tableSize with ⟨-, hused⟩ | ⟨i, hi, -, hadd⟩
      · obtain ⟨j, hj, hunused⟩ := hroom
        rw [← (hsame j hj).inUse, hused j (by omega) (by omega)] at hunused
        cases hunused
      · have hround : divRoundUp 0 sectorSize = 0 := by decide
        obtain ⟨g, b₂, halloc, -, -, -, -, hbits₂, -⟩ := FileHeader.allocate_ok
          (FileHeader.ofImage (c.junk t 4)) b₁ 0 (by decide) (by decide) (by rw [hround]; omega)
        have hcall : c.allocate t buf' d b = .ok (.updatingDirectory b₂ (c.writeBacks t w g
            (d.setEntry i ⟨true, w, strncpy fileNameMaxLen (d.table i).name buf'⟩))) := by
          have hidx' : d.findIndex buf' = -1 := (Directory.findIndex_congr hname d).trans hidx
          have hw1 : ¬ ((w : Int) = -1) := by omega
          simp only [allocate, BitMap.find, hw, ok_bind, hw1, if_false, Directory.add, hidx', hadd, halloc, ne_eq,
            not_true_eq_false, Bool.not_true, Bool.false_eq_true, pure_eq_ok]
        have hlook : c.lookUp t buf' d = .fetchingFreeMap d (Blocking.fetchFreeMap c.fs (c.junk t)) := by
          unfold lookUp
          rw [Directory.find_congr hname, if_neg (by simp [hfind])]
        have hdirectory := alone_directory s buf' hd
        rw [hlook] at hdirectory
        exact ⟨buf', d, i, w, g, b₂, hname, hsize, hsame, hw', hbits₂.trans (hbits₁.trans hbits),
          halone.trans (hdirectory.trans (alone_freeMap s hb hcall))⟩
  · exact absurd hfile (habsent j)

/-- The write-backs are made on whatever the disk holds by then. -/
theorem alone_writeBacks (ok : DiskOk disk) (hm : Mounted c.fs disk) {d : Directory} (hsize : d.tableSize = numDirEntries)
    (hsame : ∀ j < numDirEntries, (d.table j).Same (entryAt disk j)) {name : Image} {i w : ℕ} (hw : w < numSectors)
    {b : BitMap} (hbits : b.numBits = (numSectors : ℕ)) {g : FileHeader}
    (hcall : s.call t = .updatingDirectory b (c.writeBacks t w g (d.setEntry i ⟨true, w, name⟩))) :
    ∃ disk', c.Alone t s (s.put t disk' s.buf (.returned true)) ∧
      ∀ j < numDirEntries, (Directory.storedEntry (dirHeader disk) disk' j).Same
        ((d.setEntry i ⟨true, w, name⟩).table j) := by
  obtain ⟨disk₂, disk₃, hrun₂, hrun₃, -, -, hentry, -⟩ :=
    writeBacks_spec ok hm (c.junk t) hsize hsame name i hw hbits g s.disk
  refine ⟨disk₃, alone_updates hcall ?_, hentry⟩
  simp [resume, writeBacks, Blocking.run_writeSector, Blocking.run_writeDirectory, Blocking.writing,
    writeSector_eq_ok hw, hrun₂, hrun₃]

/-- A directory that holds the entries of `disk`, and one more under another name. -/
theorem lookup_absent (ok : DiskOk disk) (hm : Mounted c.fs disk) {name other : Image}
    (habsent : ∀ j, ¬ FileAt disk name j) {d : Directory}
    (hsame : ∀ j < numDirEntries, (d.table j).Same (entryAt disk j)) {i : ℕ} {sector : Int}
    (hne : cstring fileNameMaxLen other ≠ cstring fileNameMaxLen name)
    (hentry : ∀ j < numDirEntries, (Directory.storedEntry (dirHeader disk) disk₁ j).Same
      ((d.setEntry i ⟨true, sector, other⟩).table j)) (junk : ℕ → Image) :
    c.fs.lookup junk disk₁ name = .ok (-1) := by
  have hb := ok.dirBytes
  have hfile : c.fs.directoryFile = ⟨dirHeader disk, c.fs.directoryFile.seekPosition⟩ := by rw [← hm.dir]
  obtain ⟨d', hd', hsize', hsame'⟩ := Directory.fetchFrom_spec ok.dir_wellFormed (Directory.new (junk 0) numDirEntries)
    disk₁ c.fs.directoryFile.seekPosition (junk 1) (by rw [hb]; exact le_of_eq rfl) (by rw [hb]; decide)
  have hfetch : c.fs.fetchDirectory junk disk₁ = .ok d' := by
    unfold FileSystem.fetchDirectory
    rw [hfile]
    exact hd'
  have hnone : ∀ j < d'.tableSize, ¬ d'.Matches name j := by
    rintro j hj ⟨hu, hkey⟩
    have hj' : j < numDirEntries := by rwa [hsize'] at hj
    have hstored := (hsame' j hj').trans (hentry j hj')
    rw [hstored.inUse] at hu
    rw [hstored.key] at hkey
    by_cases hji : j = i
    · rw [hji, show (d.setEntry i _).table i = _ from Function.update_self _ _ _] at hkey
      exact hne hkey
    · rw [show (d.setEntry i _).table j = d.table j from Function.update_of_ne hji _ _] at hu hkey
      exact habsent j ⟨hj', (hsame j hj').inUse ▸ hu, (hsame j hj').key ▸ hkey⟩
  rcases d'.findIndex_spec name with ⟨hidx, -⟩ | ⟨j, -, hj, hmatch⟩
  · simp [FileSystem.lookup, hfetch, Directory.find, hidx]
  · exact absurd hmatch (hnone j hj)

/-- The first call has written everything back when the second begins to: the directory ends up as the second call's
copy, without the first one's entry. -/
theorem Room.overlap (h : c.Room disk) : ∃ s, c.Reached disk (fun _ _ => true) s ∧ (∀ t, s.call t = .returned true) ∧
    ∀ junk, c.fs.lookup junk s.disk (c.name false) = .ok (-1) := by
  obtain ⟨ok, hm, hne, habsent, i₀, hi₀, -, -, -, hunused, -⟩ := h
  have hroom : ∃ i < numDirEntries, (entryAt disk i).inUse = false := ⟨i₀, hi₀, hunused⟩
  have hstart : c.Reached disk (fun _ _ => true) ⟨disk, fun _ => 0, fun _ => .idle⟩ :=
    Reachable.start ⟨rfl, fun _ => rfl⟩
  -- each call runs up to its write-backs, on the disk as it was
  obtain ⟨buf₁, d₁, i₁, w₁, g₁, b₁, -, hsize₁, hsame₁, hw₁, hbits₁, hrun₁⟩ :=
    alone_decides (s := ⟨disk, fun _ => 0, fun _ => .idle⟩) ok hm (t := false) rfl (habsent false) hroom
  have hreached₁ := hstart.alone hrun₁ fun _ _ => rfl
  generalize hs₁ : CreateState.put _ false _ _ _ = s₁ at hreached₁
  have hdisk₁ : s₁.disk = disk := by rw [← hs₁, put_disk]
  have hcall₁ := put_call ⟨disk, fun _ => 0, fun _ => .idle⟩ false disk buf₁ (.updatingDirectory b₁
    (c.writeBacks false w₁ g₁ (d₁.setEntry i₁ ⟨true, w₁, strncpy fileNameMaxLen (d₁.table i₁).name buf₁⟩)))
  rw [hs₁] at hcall₁
  have hidle₁ : s₁.call true = .idle := by
    rw [← hs₁]
    rfl
  obtain ⟨buf₂, d₂, i₂, w₂, g₂, b₂, hname₂, hsize₂, hsame₂, hw₂, hbits₂, hrun₂⟩ :=
    alone_decides (s := s₁) (hdisk₁ ▸ ok) (hdisk₁ ▸ hm) hidle₁ (hdisk₁ ▸ habsent true) (hdisk₁ ▸ hroom)
  rw [hdisk₁] at hsame₂
  have hreached₂ := hreached₁.alone hrun₂ fun _ _ => rfl
  -- the first call writes its copies back, and then the second
  obtain ⟨disk₃, hrun₃, -⟩ := alone_writeBacks (t := false) ok hm hsize₁ hsame₁ hw₁ hbits₁
    ((put_call_not s₁ true _ _ _).trans hcall₁)
  have hreached₃ := hreached₂.alone hrun₃ fun _ _ => rfl
  obtain ⟨disk₄, hrun₄, hentry⟩ := alone_writeBacks (t := true) ok hm hsize₂ hsame₂ hw₂ hbits₂
    ((put_call_not _ false _ _ _).trans (put_call s₁ true _ _ _))
  refine ⟨_, hreached₃.alone hrun₄ fun _ _ => rfl, fun t => ?_, fun junk => ?_⟩
  · cases t with
    | false => exact (put_call_not _ true _ _ _).trans (put_call _ false _ _ _)
    | true => exact put_call _ true _ _ _
  · refine lookup_absent ok hm (habsent false) hsame₂ ?_ hentry junk
    rw [cstring_strncpy, hname₂]
    exact hne.symm

end TwoCreates

/-- A disk without files, and the names `a` and `b`: both calls report success, and `a` is not found. -/
theorem concurrent_create_lost : ∃ c disk₀ s, TwoCreates.Room c disk₀ ∧ (∀ t, c.name t 1 = 0) ∧
    c.Reached disk₀ (fun _ _ => true) s ∧ (∀ t, s.call t = .returned true) ∧
    (∀ junk, c.fs.lookup junk s.disk (c.name false) = .ok (-1)) ∧ ¬ c.BothFound s.disk := by
  obtain ⟨c, disk₀, hroom, hname⟩ := room_formatted
  obtain ⟨s, hreached, hdone, hlost⟩ := hroom.overlap
  refine ⟨c, disk₀, s, hroom, fun t => by rw [hname]; rfl, hreached, hdone, hlost, ?_⟩
  rintro ⟨i, hfound, hsector, -⟩
  have hlookup := (hfound false fun _ _ => 0).symm.trans (hlost fun _ _ => 0)
  exact (hsector false).2 (Except.ok.inj hlookup)

end Nachos
