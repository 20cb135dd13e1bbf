import Nachos.Userprog.StackArgs

/-! # Descriptors of a process over its calls (`userprog/exception.cc`, `FD_List` of `addrspace.cc`)

A process begins with the descriptors of the console, 0 and 1, and `Open` takes the first that is free. So it
gives out new descriptors from 2 on as long as nothing has closed those two. Between two calls of the process the
rest of the system may do anything but touch its table. -/
set_option autoImplicit false

namespace Nachos
open Buffer Execution

/-- A call that works on the descriptors of the process. -/
inductive FileCall where
  | openFile (addr : Int)
  | close (fd : Int)
  | read (addr size fd : Int)
  | write (addr size fd : Int)

namespace Os

def fileCall (env : Outside) (k : Os) : FileCall → Call Os
  | .openFile addr => do
    let (_, k) ← k.openSyscallFunc env addr
    return k
  | .close fd => k.closeSyscallFunc env fd
  | .read addr size fd => do
    let (_, k) ← k.readSyscallFunc env addr size fd
    return k
  | .write addr size fd => do
    let (_, k) ← k.writeSyscallFunc env addr size fd
    return k

/-- The descriptor table of the current process. -/
def table (k : Os) : Option FdList := (k.process k.current).map Process.openFiles

/-- The current process has just been made by `AddrSpace(char*)`. -/
def Created (k : Os) : Prop := ∃ env l, newOpenFiles env = .ok l ∧ k.table = some l

inductive CallStep : Os → Option FileCall → Os → Prop
  | call {k k' : Os} {c : FileCall} (env : Outside) (h : k.fileCall env c = .ok k') : CallStep k (some c) k'
  | others {k k' : Os} (h : k'.table = k.table) : CallStep k none k'

/-- The call does not close a descriptor of the console. -/
def SparesConsole (_ : Os) (c : Option FileCall) : Prop :=
  c ≠ some (.close consoleInput) ∧ c ≠ some (.close consoleOutput)

/-- Descriptor `fd` of the current process is allocated. -/
def Allocated (k : Os) (fd : Int) : Prop := ∃ l, k.table = some l ∧ l.IsOpen fd

/-- A descriptor beyond those of the console that was free, or a failure that takes none. -/
def Assigns (k k' : Os) (sysRet : Int) : Prop :=
  if sysRet = -1 then ∀ fd, k'.Allocated fd ↔ k.Allocated fd else 2 ≤ sysRet ∧ ¬ k.Allocated sysRet

/-- There is no file of the name that the call of `Open` asks for. -/
def OpensNothing (env : Outside) (k : Os) (addr : Int) : Prop :=
  ∃ buf k₁, k.read env k.current addr 0 = .ok (buf, k₁) ∧
    k₁.fileSystem.openFile env.junk k₁.memory.disk buf = .ok none

/-! ## What the calls do to the table -/

variable {env : Outside} {k k' : Os} {l : FdList}

theorem table_setProcess {p p' : Process} {m : Memory} (hp : k.process k.current = some p)
    (hsame : p'.openFiles = p.openFiles) : ({ k with memory := m }.setProcess k.current p').table = k.table := by
  unfold table setProcess
  dsimp only
  rw [Function.update_self, hp, Option.map_some, Option.map_some, hsame]

theorem table_putFiles {p : Process} (l' : FdList) :
    (k.setProcess k.current { p with openFiles := l' }).table = some l' := by
  unfold table setProcess
  dsimp only
  rw [Function.update_self]
  rfl

theorem table_read {addr bytes : Int} {buf : Image} (h : k.read env k.current addr bytes = .ok (buf, k')) :
    k'.table = k.table ∧ k'.current = k.current := by
  obtain ⟨p, space, m, hp, -, rfl⟩ := read_eq_ok h
  exact ⟨table_setProcess hp rfl, rfl⟩

theorem table_write {addr bytes : Int} {str : Image} (h : k.write env k.current addr str bytes = .ok k') :
    k'.table = k.table ∧ k'.current = k.current := by
  obtain ⟨p, space, m, hp, -, rfl⟩ := write_eq_ok h
  exact ⟨table_setProcess hp rfl, rfl⟩

theorem writeSyscallFunc_table {addr size fd v : Int} (h : k.writeSyscallFunc env addr size fd = .ok (v, k')) :
    k'.table = k.table := by
  unfold writeSyscallFunc at h
  split at h
  · cases h
    rfl
  split at h
  · cases h
    rfl
  split at h
  · cases h
    rfl
  split at h
  · cases h
    rfl
  obtain ⟨⟨buf, k₁⟩, hread, h⟩ := bind_eq_ok.mp h
  have htable := (table_read hread).1
  dsimp only at h
  split at h
  · split at h
    · cases h
      exact htable
    · cases h
  · obtain ⟨p, -, h⟩ := bind_eq_ok.mp h
    obtain ⟨entry, -, h⟩ := bind_eq_ok.mp h
    cases entry with
    | none =>
      cases h
      exact htable
    | some f =>
      obtain ⟨file, -, h⟩ := bind_eq_ok.mp h
      obtain ⟨⟨temp, disk, file⟩, -, h⟩ := bind_eq_ok.mp h
      dsimp only at h
      split at h
      · cases h
        exact htable
      · cases h

theorem readSyscallFunc_table {addr size fd v : Int} (h : k.readSyscallFunc env addr size fd = .ok (v, k')) :
    k'.table = k.table := by
  unfold readSyscallFunc at h
  split at h
  · cases h
    rfl
  split at h
  · cases h
    rfl
  split at h
  · cases h
    rfl
  split at h
  · cases h
  split at h
  · cases h
    rfl
  split at h
  · obtain ⟨buf, -, h⟩ := bind_eq_ok.mp h
    obtain ⟨k₁, hwrite, h⟩ := bind_eq_ok.mp h
    obtain ⟨len, -, h⟩ := bind_eq_ok.mp h
    cases h
    exact (table_write hwrite).1
  · obtain ⟨p, -, h⟩ := bind_eq_ok.mp h
    obtain ⟨entry, -, h⟩ := bind_eq_ok.mp h
    cases entry with
    | none =>
      cases h
      rfl
    | some f =>
      obtain ⟨file, -, h⟩ := bind_eq_ok.mp h
      obtain ⟨⟨readSize, bytes, file⟩, -, h⟩ := bind_eq_ok.mp h
      dsimp only at h
      split at h
      · obtain ⟨k₁, hwrite, h⟩ := bind_eq_ok.mp h
        cases h
        exact (table_write (k := k.setFile f (some file)) hwrite).1
      · split at h <;> cases h <;> rfl

theorem closeSyscallFunc_table {fd : Int} (hl : k.table = some l) (h : k.closeSyscallFunc env fd = .ok k') :
    ∃ l', k'.table = some l' ∧ l'.size = l.size ∧ ∀ j, l'.IsOpen j ↔ l.IsOpen j ∧ j ≠ fd := by
  unfold closeSyscallFunc at h
  split at h
  · next hneg =>
    cases h
    refine ⟨l, hl, rfl, fun j => (and_iff_left_of_imp ?_).symm⟩
    rintro hj rfl
    exact absurd hj.1 (Int.not_le.mpr hneg)
  · obtain ⟨p, hp, h⟩ := bind_eq_ok.mp h
    have hproc := getProcess_eq_ok hp
    have hpl : p.openFiles = l := by
      rw [table, hproc] at hl
      exact Option.some.inj hl
    obtain ⟨l', hremove, hsize, hopen, -⟩ := p.openFiles.fdRemove_spec (env.oldFds 0) fd
    rw [hremove, ok_bind] at h
    rw [hpl] at hsize hopen
    refine ⟨l', ?_, hsize, hopen⟩
    have htable : (k.setProcess k.current { p with openFiles := l' }).table = some l' := table_putFiles l'
    dsimp only at h
    split at h
    · cases h
      exact htable
    · obtain ⟨file, -, h⟩ := bind_eq_ok.mp h
      cases h
      exact htable

theorem openSyscallFunc_table {addr sysRet : Int} (hl : k.table = some l)
    (h : k.openSyscallFunc env addr = .ok (sysRet, k')) :
    (k.OpensNothing env addr ∧ sysRet = -1 ∧ k'.table = some l) ∨
    (¬ k.OpensNothing env addr ∧ ∃ fd l', l.fdPut (some env.newFile) = .ok (fd, l') ∧ k'.table = some l' ∧
      sysRet = if fd = 0 then -1 else fd) := by
  obtain ⟨⟨buf, k₁⟩, hread, h⟩ := bind_eq_ok.mp h
  obtain ⟨htable, hcurrent⟩ := table_read hread
  obtain ⟨file, hopen, h⟩ := bind_eq_ok.mp h
  cases file with
  | none =>
    cases h
    exact Or.inl ⟨⟨buf, k', hread, hopen⟩, rfl, htable.trans hl⟩
  | some file =>
    right
    constructor
    · rintro ⟨buf', k₁', hread', hopen'⟩
      rw [hread] at hread'
      cases hread'
      rw [hopen] at hopen'
      cases hopen'
    · obtain ⟨p, hp, h⟩ := bind_eq_ok.mp h
      obtain ⟨⟨fd, l'⟩, hput, h⟩ := bind_eq_ok.mp h
      cases h
      have hproc := getProcess_eq_ok hp
      have hpl : p.openFiles = l := by
        have hl₁ := htable.trans hl
        rw [table, hproc] at hl₁
        exact Option.some.inj hl₁
      rw [hpl] at hput
      refine ⟨fd, l', hput, ?_, rfl⟩
      have hset : (k₁.setProcess k₁.current { p with openFiles := l' }).table = some l' := table_putFiles l'
      split <;> exact hset

/-! ## Runs -/

/-- The calls of a process from its creation on, of which each meets the condition. -/
abbrev Calls (allowed : Os → Option FileCall → Prop) : Os → Prop := Reachable Created CallStep allowed

/-- The table of the current process, with the descriptors that stay open. -/
structure HasTable (k : Os) (kept : Int → Prop) : Prop where
  exists_table : ∃ l, k.table = some l ∧ l.size = 512 ∧ ∀ fd, kept fd → l.IsOpen fd

theorem created_hasTable (h : k.Created) : k.HasTable fun fd => fd = 0 ∨ fd = 1 := by
  obtain ⟨env, l, hl, htable⟩ := h
  obtain ⟨l', hl', hsize, -, hopen⟩ := newOpenFiles_spec env
  rw [hl] at hl'
  cases hl'
  exact ⟨l, htable, hsize, fun fd hfd => (hopen fd).mpr hfd⟩

theorem hasTable_step {kept : Int → Prop} (h : k.HasTable kept) {c : Option FileCall}
    (hkept : ∀ fd, c = some (.close fd) → ¬ kept fd) (hstep : CallStep k c k') : k'.HasTable kept := by
  obtain ⟨l, hl, hsize, hopen⟩ := h
  cases hstep with
  | others hsame => exact ⟨l, hsame.trans hl, hsize, hopen⟩
  | @call _ c env hcall =>
    cases c with
    | openFile addr =>
      obtain ⟨⟨sysRet, k₁⟩, hrun, hcall⟩ := bind_eq_ok.mp hcall
      cases hcall
      rcases openSyscallFunc_table hl hrun with ⟨-, -, htable⟩ | ⟨-, fd, l', hput, htable, -⟩
      · exact ⟨l, htable, hsize, hopen⟩
      · rcases l.fdPut_spec (some env.newFile) (by rw [hsize]; decide) with
          ⟨hput', -⟩ | ⟨w, l'', hput', -, -, hsize', -, hopen'⟩
        · rw [hput] at hput'
          cases hput'
          exact ⟨l, htable, hsize, hopen⟩
        · rw [hput] at hput'
          cases hput'
          exact ⟨l', htable, hsize'.trans hsize, fun fd hfd => (hopen' fd).mpr (Or.inr (hopen fd hfd))⟩
    | close fd =>
      obtain ⟨l', htable, hsize', hopen'⟩ := closeSyscallFunc_table hl hcall
      refine ⟨l', htable, hsize'.trans hsize, fun j hj => (hopen' j).mpr ⟨hopen j hj, ?_⟩⟩
      rintro rfl
      exact hkept j rfl hj
    | read addr size fd =>
      obtain ⟨⟨v, k₁⟩, hrun, hcall⟩ := bind_eq_ok.mp hcall
      cases hcall
      exact ⟨l, (readSyscallFunc_table hrun).trans hl, hsize, hopen⟩
    | write addr size fd =>
      obtain ⟨⟨v, k₁⟩, hrun, hcall⟩ := bind_eq_ok.mp hcall
      cases hcall
      exact ⟨l, (writeSyscallFunc_table hrun).trans hl, hsize, hopen⟩

theorem calls_hasTable (h : Calls (fun _ _ => True) k) : k.HasTable fun _ => False := by
  refine Reachable.invariant (fun k => k.HasTable fun _ => False) ?_ ?_ h
  · intro k hk
    obtain ⟨l, hl, hsize, -⟩ := created_hasTable hk
    exact ⟨l, hl, hsize, fun _ => False.elim⟩
  · intro k c k' hinv _ hstep
    exact hasTable_step hinv (fun _ _ => id) hstep

theorem calls_console (h : Calls SparesConsole k) : k.Allocated 0 ∧ k.Allocated 1 := by
  have hinv : k.HasTable fun fd => fd = 0 ∨ fd = 1 := by
    refine Reachable.invariant (fun k => k.HasTable fun fd => fd = 0 ∨ fd = 1) (fun k hk => created_hasTable hk) ?_ h
    intro k c k' hinv hspares hstep
    refine hasTable_step hinv ?_ hstep
    rintro fd rfl (rfl | rfl)
    · exact hspares.1 rfl
    · exact hspares.2 rfl
  obtain ⟨l, hl, -, hopen⟩ := hinv
  exact ⟨⟨l, hl, hopen 0 (Or.inl rfl)⟩, l, hl, hopen 1 (Or.inr rfl)⟩

/-! ## Open -/

theorem allocated_iff (hl : k.table = some l) (fd : Int) : k.Allocated fd ↔ l.IsOpen fd := by
  constructor
  · rintro ⟨l', hl', hopen⟩
    rw [hl] at hl'
    cases hl'
    exact hopen
  · exact fun hopen => ⟨l, hl, hopen⟩

theorem assigns_of_put {fd sysRet : Int} {l' : FdList} (hl : k.table = some l) (hl' : k'.table = some l')
    (hsize : l.size = 512) (hput : l.fdPut (some env.newFile) = .ok (fd, l')) (hret : sysRet = if fd = 0 then -1 else fd) :
    k.Assigns k' sysRet ↔ k.Allocated 0 ∧ k.Allocated 1 := by
  unfold Assigns
  rw [allocated_iff hl, allocated_iff hl, allocated_iff hl]
  rcases l.fdPut_spec (some env.newFile) (by rw [hsize]; decide) with
    ⟨hput', hall⟩ | ⟨w, l'', hput', hfree, hleast, -, -, hopen⟩
  · rw [hput] at hput'
    cases hput'
    rw [if_neg (by decide)] at hret
    rw [if_pos hret]
    refine iff_of_true (fun fd => ?_) ⟨hall 0 (by omega) (by rw [hsize]; decide), hall 1 (by omega) (by rw [hsize]; decide)⟩
    rw [allocated_iff hl, allocated_iff hl']
  · rw [hput] at hput'
    cases hput'
    match w with
    | 0 =>
      rw [if_pos (by decide)] at hret
      rw [if_pos hret]
      refine iff_of_false (fun h => ?_) fun h => hfree h.1
      have h0 := h 0
      rw [allocated_iff hl, allocated_iff hl'] at h0
      exact hfree (h0.mp ((hopen 0).mpr (Or.inl rfl)))
    | 1 =>
      rw [if_neg (by decide)] at hret
      subst hret
      rw [if_neg (by decide)]
      exact iff_of_false (fun h => absurd h.1 (by decide)) fun h => hfree h.2
    | w + 2 =>
      rw [if_neg (by omega)] at hret
      subst hret
      rw [if_neg (by omega)]
      exact iff_of_true ⟨by omega, hfree⟩ ⟨hleast 0 (by omega) (by omega), hleast 1 (by omega) (by omega)⟩

/-- In every run of calls a call of `Open` assigns descriptors as it should just when it finds no file or both
descriptors of the console are open; and they are, in runs that never close one of them. -/
theorem open_assigns_descriptors (h : Calls (fun _ _ => True) k) :
    (∀ env addr sysRet k', k.openSyscallFunc env addr = .ok (sysRet, k') →
      (k.Assigns k' sysRet ↔ k.OpensNothing env addr ∨ k.Allocated 0 ∧ k.Allocated 1)) ∧
    (Calls SparesConsole k → k.Allocated 0 ∧ k.Allocated 1) := by
  refine ⟨fun env addr sysRet k' hopen => ?_, calls_console⟩
  obtain ⟨l, hl, hsize, -⟩ := calls_hasTable h
  rcases openSyscallFunc_table hl hopen with ⟨hnothing, hret, htable⟩ | ⟨hsome, fd, l', hput, htable, hret⟩
  · refine iff_of_true ?_ (Or.inl hnothing)
    unfold Assigns
    rw [if_pos hret]
    intro fd
    rw [allocated_iff hl, allocated_iff htable]
  · rw [or_iff_right hsome]
    exact assigns_of_put hl htable hsize hput hret

/-! ## A process with a file to open -/

theorem reader_table (d : ReaderDisk) (a : AddrSpace) (l : FdList) : (reader d a l 0).table = some l := rfl

theorem created_reader (d : ReaderDisk) (a : AddrSpace) : ∃ l, (reader d a l 0).Created ∧ l.size = 512 ∧
    (∀ i, l.list i = none) ∧ ∀ i : Int, l.IsOpen i ↔ i = 0 ∨ i = 1 := by
  obtain ⟨l, hnew, hsize, hlist, hopen⟩ := newOpenFiles_spec readerOutside
  refine ⟨l, ⟨readerOutside, l, hnew, rfl⟩, hsize, fun i => ?_, hopen⟩
  rw [hlist, Function.update_apply, Function.update_apply]
  split
  · rfl
  · split <;> rfl

/-- The table after the process has closed a descriptor of the console. -/
theorem closed_reader (d : ReaderDisk) (a : AddrSpace) {fd : Int} (hfd : 0 ≤ fd) :
    ∃ l, Calls (fun _ _ => True) (reader d a l 0) ∧ l.size = 512 ∧
      ∀ i : Int, l.IsOpen i ↔ (i = 0 ∨ i = 1) ∧ i ≠ fd := by
  obtain ⟨l, hcreated, hsize, hlist, hopen⟩ := created_reader d a
  obtain ⟨l', hremove, -⟩ := l.fdRemove_spec none fd
  have hnone : (if l.IsOpen fd then l.list fd.toNat else none) = none := by
    rw [hlist, ite_self]
  rw [hnone] at hremove
  have hclose : ∃ k, (reader d a l 0).closeSyscallFunc readerOutside fd = .ok k := by
    unfold closeSyscallFunc
    rw [if_neg (Int.not_lt.mpr hfd), getProcess_eq
      (rfl : (reader d a l 0).process (reader d a l 0).current = some ⟨a, l, 4080, 0, 0⟩), ok_bind]
    change ∃ k, (l.fdRemove none fd >>= _) = Except.ok k
    rw [hremove, ok_bind]
    exact ⟨_, rfl⟩
  obtain ⟨k, hclose⟩ := hclose
  obtain ⟨l'', htable, hsize'', hopen''⟩ := closeSyscallFunc_table (reader_table d a l) hclose
  have hrun := Reachable.next (.start hcreated : Calls (fun _ _ => True) (reader d a l 0)) trivial
    (.call (c := .close fd) readerOutside hclose)
  refine ⟨l'', hrun.next trivial (.others htable.symm), hsize''.trans hsize, fun i => ?_⟩
  rw [hopen'', hopen]

/-- Address 0 has the empty string, and there is a file of this name. -/
theorem exists_opens : ∃ (d : ReaderDisk) (a : AddrSpace), ∀ (l l' : FdList) (fd : Int),
    l.fdPut (some readerOutside.newFile) = .ok (fd, l') →
      ∃ k, (reader d a l 0).openSyscallFunc readerOutside 0 = .ok (if fd = 0 then -1 else fd, k) ∧ k.table = some l' := by
  obtain ⟨d⟩ := exists_readerDisk
  obtain ⟨a, ha, hblank, hpages, -⟩ := blank_construct []
  obtain ⟨hok, -, htable, -⟩ := construct_eq_ok ha
  refine ⟨d, a, fun l l' fd hput => ?_⟩
  have hstands : (reader d a l 0).vm.Stands readerOutside.fs (bufferPages 0 0 1)
      ((reader d a l 0).userByte readerOutside) :=
    ⟨reader_sound hok htable d l 0, reader_mapped hblank hpages htable d l 0 (by decide), rfl⟩
  have hempty : StringAt (bufferPages 0 0 1) 0 ((reader d a l 0).userByte readerOutside 0) 0 [] := by
    refine ⟨fun o _ => ?_, by decide, by decide, fun j hj => mem_bufferPages 0 0 ?_⟩
    · rw [reader_userByte hblank htable, List.getD_nil]
    · rw [List.length_nil] at hj
      omega
  obtain ⟨p, space, m, hp, hread, -, hdisk⟩ := read_string hstands hempty
  obtain rfl : p = ⟨a, l, 4080, 0, 0⟩ := (Option.some.inj hp).symm
  obtain ⟨k₁, hread, hprocess, hfs, hdisk⟩ : ∃ k₁ : Os,
      (reader d a l 0).read readerOutside (reader d a l 0).current 0 0 = .ok (ofBytes [], k₁) ∧
      k₁.process k₁.current = some ⟨space, l, 4080, 0, 0⟩ ∧ k₁.fileSystem = d.fs ∧ k₁.memory.disk = d.disk :=
    ⟨_, hread, rfl, rfl, hdisk⟩
  have hopen : k₁.fileSystem.openFile readerOutside.junk k₁.memory.disk (ofBytes []) = .ok (some ⟨d.hdr, 0⟩) := by
    rw [hfs, hdisk]
    exact d.opens _
  have hcall : Returns ((reader d a l 0).openSyscallFunc readerOutside 0) := by
    unfold openSyscallFunc
    rw [hread, ok_bind]
    dsimp only
    rw [hopen, ok_bind]
    dsimp only
    rw [getProcess_eq hprocess, ok_bind, hput]
    exact ⟨_, rfl⟩
  obtain ⟨⟨sysRet, k⟩, hcall⟩ := hcall
  rcases openSyscallFunc_table (reader_table d a l) hcall with
    ⟨⟨buf, k₂, hread', hopen'⟩, -⟩ | ⟨-, fd', l'', hput', hl'', rfl⟩
  · rw [hread] at hread'
    cases hread'
    rw [hopen] at hopen'
    cases hopen'
  · rw [hput] at hput'
    cases hput'
    exact ⟨k, hcall, hl''⟩

/-- Once 0 has been closed a call of `Open` takes it and fails; once 1 has been closed a call of `Open` returns it. -/
theorem open_after_close :
    (∃ k k', Calls (fun _ _ => True) k ∧ k.openSyscallFunc readerOutside 0 = .ok (-1, k') ∧
      ¬ k.Allocated 0 ∧ k'.Allocated 0) ∧
    ∃ k k', Calls (fun _ _ => True) k ∧ k.openSyscallFunc readerOutside 0 = .ok (1, k') := by
  obtain ⟨d, a, hopens⟩ := exists_opens
  constructor
  · obtain ⟨l, hcalls, hsize, hopen⟩ := closed_reader d a (le_refl 0)
    have hfree : ¬ l.IsOpen 0 := fun h => ((hopen 0).mp h).2 rfl
    rcases l.fdPut_spec (some readerOutside.newFile) (by rw [hsize]; decide) with
      ⟨-, hall⟩ | ⟨w, l', hput, -, hleast, -, -, hopen'⟩
    · exact absurd (hall 0 (by decide) (by rw [hsize]; decide)) hfree
    · have hw : w = 0 := by
        by_contra hne
        exact hfree (hleast 0 (by decide) (by omega))
      subst hw
      obtain ⟨k, hcall, htable⟩ := hopens _ _ _ hput
      refine ⟨_, k, hcalls, hcall, ?_, l', htable, (hopen' 0).mpr (Or.inl rfl)⟩
      rw [allocated_iff (reader_table d a l)]
      exact hfree
  · obtain ⟨l, hcalls, hsize, hopen⟩ := closed_reader d a (show (0 : Int) ≤ 1 by decide)
    have hfree : ¬ l.IsOpen 1 := fun h => ((hopen 1).mp h).2 rfl
    have hzero : l.IsOpen 0 := (hopen 0).mpr ⟨Or.inl rfl, by decide⟩
    rcases l.fdPut_spec (some readerOutside.newFile) (by rw [hsize]; decide) with
      ⟨-, hall⟩ | ⟨w, l', hput, hw, hleast, -, -, -⟩
    · exact absurd (hall 1 (by decide) (by rw [hsize]; decide)) hfree
    · have hw1 : w = 1 := by
        have hne : w ≠ 0 := by
          rintro rfl
          exact hw hzero
        by_contra hne'
        exact hfree (hleast 1 (by decide) (by omega))
      subst hw1
      obtain ⟨k, hcall, -⟩ := hopens _ _ _ hput
      exact ⟨_, k, hcalls, hcall⟩

/-- The first call of `Open` of a process. -/
theorem open_assigns_first : ∃ k k' sysRet, Calls (fun _ _ => True) k ∧
    k.openSyscallFunc readerOutside 0 = .ok (sysRet, k') ∧ k.Assigns k' sysRet := by
  obtain ⟨d, a, hopens⟩ := exists_opens
  obtain ⟨l, hcreated, -⟩ := created_reader d a
  obtain ⟨⟨fd, l'⟩, hput⟩ := l.fdPut_returns (some readerOutside.newFile)
  obtain ⟨k', hcall, -⟩ := hopens _ _ _ hput
  have hcalls : Calls (fun _ _ => True) (reader d a l 0) := .start hcreated
  have hiff := (open_assigns_descriptors hcalls).1 _ _ _ _ hcall
  exact ⟨_, k', _, hcalls, hcall, hiff.mpr (Or.inr ((open_assigns_descriptors hcalls).2 (.start hcreated)))⟩

end Os

end Nachos
