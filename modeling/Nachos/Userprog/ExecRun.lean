import Nachos.Userprog.ExecArguments
import Mathlib.Data.List.Find

/-! # `Exec` among the system calls of other processes (`Exec_Syscall_Func`, `AddrSpace::AddrSpace(char*)`)

`AddrSpace::read` puts what it reads into a static buffer and returns a pointer to it. `Exec` reads the name there,
and the constructor of the new address space opens the file under this name, enters its two console descriptors under
a lock, and only then copies the name out of the buffer. Another process can run whenever a page is loaded, a disk
request is waited for, or `Lock::Acquire` or `Lock::Release` turns the interrupts on again, and what its own system
calls read goes into the same buffer. -/
set_option autoImplicit false

namespace Nachos
open Buffer Execution

variable {env : Outside} {name : Image} {executable : Executable}

/-! ## The steps of one `Exec` -/

/-- The string in a buffer of `bufferSize` bytes. -/
def stringAt (buf : Image) : Call FileName := do
  let len ← strlen buf bufferSize
  return (List.range len).map buf

/-- `AddrSpace::AddrSpace(char*)` from its `ReadAt` on: the file is open and `filename` is set. -/
def AddrSpace.constructFrom (executable : Executable) (junk : Image) (words : ℕ → BitVec 32) (filename : FileName) :
    Call AddrSpace := do
  let noffH ← NoffHeader.fetch executable junk
  if noffH.noffMagic ≠ noffMagic then .error (.thrown 1)
  else
    let numPages := divRoundUp noffH.spaceSize pageSize
    if 0 ≤ numPages ∧ numPages ≤ numPhysPages then do
      let onDisk ← BitMap.new words numPages
      return { pageTable := TranslationEntry.absent, numPages := numPages.toNat, filename := filename,
               noffH := noffH, onDisk := onDisk, pageSector := fun _ => -1, victumOffset := 0 }
    else .error .assertFailed

theorem AddrSpace.construct_eq {fs : Programs} {name : FileName} (h : fs name = some executable) (junk : Image)
    (words : ℕ → BitVec 32) :
    AddrSpace.construct fs junk words name = AddrSpace.constructFrom executable junk words name := by
  unfold AddrSpace.construct
  rw [h]
  rfl

/-- Where `FD_List::fd_put` stands: before `Acquire`, after it, and after `Release`. -/
inductive PutPc where
  | acquire
  | find
  | store (i : Int)

/-- The end of `fd_put`, for a null pointer: `i` is what `Find` returned. -/
def FdList.stored (l : FdList) (i : Int) : FdList :=
  if i ≠ -1 then ⟨l.map, Function.update l.list i.toNat none⟩ else l

/-- A file, and the name under which it was opened. -/
structure Opened where
  name : FileName
  file : ℕ

/-- Where the `Exec` system call stands. -/
inductive ExecPc where
  /-- `AddrSpace::read` copies byte `n` of the name next. -/
  | reading (n : ℕ)
  /-- In `FileSystem::Open`, which looks the name up next. -/
  | opening
  /-- In `fd_put`, with `left` more calls of it to come. -/
  | inFdPut (opened : Opened) (openFiles : FdList) (left : ℕ) (pc : PutPc)
  /-- The name is copied, and the header of the file is read next. -/
  | fetching (opened : Opened) (openFiles : FdList) (filename : FileName)
  /-- The address space is made, from the contents that the file had when its header was read. -/
  | created (opened : Opened) (executable : Executable) (p : Process)
  | failed

/-- Another process in `AddrSpace::read`: what its pointer refers to, the `bytes` it asked for, and the next byte. -/
structure Reading where
  src : Image
  bytes : Int
  next : ℕ

structure ExecState (Pid : Type) where
  /-- The static buffer of `AddrSpace::read`. -/
  buf : Image
  /-- What `FileSystem::Open` finds under a name. -/
  directory : FileName → Option ℕ
  contents : ℕ → Executable
  exec : ExecPc
  others : Pid → Option Reading

/-- The next step of the `Exec`: the buffer and the call afterwards. -/
def ExecPc.step (env : Outside) (name buf : Image) (directory : FileName → Option ℕ) (contents : ℕ → Executable) :
    ExecPc → Call (Image × ExecPc)
  | .reading n =>
    .ok (Function.update buf n (name n), if name n = 0 ∨ n + 1 = bufferSize then .opening else .reading (n + 1))
  | .opening => do
    let str ← stringAt buf
    match directory str with
    | none => return (buf, .failed)
    | some file =>
      let openFiles ← FdList.new env.words env.oldFds 512
      return (buf, .inFdPut ⟨str, file⟩ openFiles 1 .acquire)
  | .inFdPut opened openFiles left .acquire => .ok (buf, .inFdPut opened openFiles left .find)
  | .inFdPut opened openFiles left .find => do
    let (i, map) ← openFiles.map.find
    return (buf, .inFdPut opened ⟨map, openFiles.list⟩ left (.store i))
  | .inFdPut opened openFiles left (.store i) =>
    match left with
    | left + 1 => .ok (buf, .inFdPut opened (openFiles.stored i) left .acquire)
    | 0 => do
      -- `strcpy(filename, name)`
      let filename ← stringAt buf
      return (buf, .fetching opened (openFiles.stored i) filename)
  | .fetching opened openFiles filename =>
    match AddrSpace.constructFrom (contents opened.file) (env.junk 0) env.words filename with
    | .ok space => .ok (buf, .created opened (contents opened.file)
        ⟨space, openFiles, space.numPages * pageSize - 16, 0, 0⟩)
    -- `catch (int e)`
    | .error (.thrown _) => .ok (buf, .failed)
    | .error trap => .error trap
  -- the constructor is left
  | .created _ _ _ => .error .badPointer
  | .failed => .error .badPointer

/-! ## The other processes -/

/-- The loop of `AddrSpace::read` ends with this byte. -/
def Reading.last (r : Reading) : Bool :=
  (r.bytes = 0 && r.src r.next = 0) || r.next + 1 = bufferSize || (r.next + 1 : Int) = r.bytes

/-- Who moves: the `Exec`; a process that enters `AddrSpace::read` in a system call, or stores a byte there; or one
whose system call does anything to the files. -/
inductive ExecAct (Pid : Type) where
  | exec
  | call (p : Pid) (src : Image) (bytes : Int)
  | store (p : Pid)
  | files (directory : FileName → Option ℕ) (contents : ℕ → Executable)

variable {Pid : Type} [DecidableEq Pid]

def ExecState.step (env : Outside) (name : Image) (s : ExecState Pid) : ExecAct Pid → Option (ExecState Pid)
  | .exec => (s.exec.step env name s.buf s.directory s.contents).toOption.map fun r =>
      { s with buf := r.1, exec := r.2 }
  | .call p src bytes =>
    if s.others p = none ∧ 0 ≤ bytes then some { s with others := Function.update s.others p (some ⟨src, bytes, 0⟩) }
    else none
  | .store p => (s.others p).map fun r =>
      { s with buf := Function.update s.buf r.next (r.src r.next),
               others := Function.update s.others p (if r.last then none else some { r with next := r.next + 1 }) }
  | .files directory contents => some { s with directory := directory, contents := contents }

/-- The `Exec` has part of its name in the buffer and has not copied it yet. -/
def ExecPc.needsBuffer : ExecPc → Bool
  | .reading n => n != 0
  | .opening | .inFdPut _ _ _ _ => true
  | _ => false

/-- No other process stores into the buffer while the `Exec` has its name there. -/
def ExecState.Undisturbed (s : ExecState Pid) (act : ExecAct Pid) : Prop :=
  ∀ p, act = .store p → s.exec.needsBuffer = false

/-- The states of an `Exec` whose register `r4` points to `name`, among other system calls. -/
def ExecReached (env : Outside) (name : Image) (allowed : ExecState Pid → ExecAct Pid → Prop) : ExecState Pid → Prop :=
  Reachable (fun s => s.exec = .reading 0) (fun s act s' => s.step env name act = some s') allowed

/-! ## Strings in the buffer -/

/-- A buffer that agrees with the source up to the end of its string, or in all its bytes. -/
theorem stringAt_of_agree {a b : Image} {n : ℕ} (h : ∀ o ≤ n, a o = b o) (hn : b n = 0 ∨ n + 1 = bufferSize)
    (hlt : n < bufferSize) : stringAt a = stringAt b := by
  obtain ⟨m, hm⟩ : ∃ m, bufferSize = (n + 1) + m := ⟨bufferSize - (n + 1), by omega⟩
  have hfront : (List.range (n + 1)).find? (fun i => a i == 0) = (List.range (n + 1)).find? (fun i => b i == 0) := by
    refine List.find?_congr fun i hi => ?_
    rw [h i (by have := List.mem_range.mp hi; omega)]
  unfold stringAt strlen
  rw [hm, List.range_add, List.find?_append, List.find?_append, hfront]
  cases hfind : (List.range (n + 1)).find? (fun i => b i == 0) with
  | some len =>
    have hlen := List.mem_range.mp (List.mem_of_find?_eq_some hfind)
    have hmap : (List.range len).map a = (List.range len).map b := by
      refine List.map_congr_left fun i hi => h i ?_
      have := List.mem_range.mp hi
      omega
    simp only [Option.some_or, ok_bind, pure_eq_ok, hmap]
  | none =>
    rcases hn with hn | hn
    · have hzero := List.find?_eq_none.mp hfind n (List.mem_range.mpr (by omega))
      simp [hn] at hzero
    · obtain rfl : m = 0 := by omega
      rfl

/-! ## The name on its way -/

/-- The calls of `fd_put` still to be made. -/
def putsLeft : ℕ → FdList → Call FdList
  | 0, l => .ok l
  | n + 1, l => do
    let (_, l) ← l.fdPut none
    putsLeft n l

theorem fdPut_stored (l : FdList) : l.fdPut none = l.map.find >>= fun r => .ok (r.1, FdList.stored ⟨r.2, l.list⟩ r.1) := by
  unfold FdList.fdPut FdList.stored
  refine bind_congr fun r => ?_
  obtain ⟨i, map⟩ := r
  dsimp only
  split
  · rfl
  · rfl

/-- The string of the buffer is the string of the name for as long as it is needed, and what has been made of it
since is what an undisturbed call makes of it. -/
def ExecPc.Ok (env : Outside) (name buf : Image) : ExecPc → Prop
  | .reading n => n < bufferSize ∧ ∀ o < n, buf o = name o
  | .opening => stringAt buf = stringAt name
  | .inFdPut opened openFiles left (.store i) => stringAt buf = stringAt name ∧ stringAt name = .ok opened.name ∧
      putsLeft left (openFiles.stored i) = Os.newOpenFiles env
  | .inFdPut opened openFiles left _ => stringAt buf = stringAt name ∧ stringAt name = .ok opened.name ∧
      putsLeft (left + 1) openFiles = Os.newOpenFiles env
  | .fetching opened openFiles filename => stringAt name = .ok opened.name ∧ filename = opened.name ∧
      Os.newOpenFiles env = .ok openFiles
  | .created opened executable p => stringAt name = .ok opened.name ∧
      AddrSpace.constructFrom executable (env.junk 0) env.words opened.name = .ok p.space ∧
      Os.newOpenFiles env = .ok p.openFiles ∧
      p = ⟨p.space, p.openFiles, p.space.numPages * pageSize - 16, 0, 0⟩
  | .failed => True

theorem ExecPc.Ok.step {buf buf' : Image} {directory : FileName → Option ℕ} {contents : ℕ → Executable}
    {pc pc' : ExecPc} (h : pc.Ok env name buf)
    (hstep : pc.step env name buf directory contents = .ok (buf', pc')) : pc'.Ok env name buf' := by
  cases pc with
  | reading n =>
    cases hstep
    obtain ⟨hlt, hbelow⟩ := h
    have hagree := update_agrees hbelow
    by_cases hend : name n = 0 ∨ n + 1 = bufferSize
    · rw [if_pos hend]
      exact stringAt_of_agree hagree hend hlt
    · rw [if_neg hend]
      exact ⟨by omega, fun o ho => hagree o (by omega)⟩
  | opening =>
    obtain ⟨str, hstr, hstep⟩ := bind_eq_ok.mp hstep
    split at hstep
    · cases hstep
      trivial
    · obtain ⟨openFiles, hnew, hstep⟩ := bind_eq_ok.mp hstep
      cases hstep
      refine ⟨h, h.symm.trans hstr, ?_⟩
      unfold Os.newOpenFiles
      rw [hnew]
      rfl
  | inFdPut opened openFiles left pc =>
    cases pc with
    | acquire =>
      cases hstep
      exact h
    | find =>
      obtain ⟨⟨i, map⟩, hfind, hstep⟩ := bind_eq_ok.mp hstep
      cases hstep
      obtain ⟨hbuf, hname, hputs⟩ := h
      refine ⟨hbuf, hname, ?_⟩
      rw [← hputs, putsLeft, fdPut_stored, hfind]
      rfl
    | store i =>
      obtain ⟨hbuf, hname, hputs⟩ := h
      cases left with
      | succ left =>
        cases hstep
        exact ⟨hbuf, hname, hputs⟩
      | zero =>
        obtain ⟨filename, hstr, hstep⟩ := bind_eq_ok.mp hstep
        cases hstep
        rw [hbuf, hname] at hstr
        exact ⟨hname, (Except.ok.inj hstr).symm, hputs.symm⟩
  | fetching opened openFiles filename =>
    obtain ⟨hname, rfl, hputs⟩ := h
    dsimp only [ExecPc.step] at hstep
    split at hstep
    · next space hspace =>
      cases hstep
      exact ⟨hname, hspace, hputs, rfl⟩
    · cases hstep
      trivial
    · cases hstep
  | created opened executable p => cases hstep
  | failed => cases hstep

/-- While it is not needed, the buffer may change. -/
theorem ExecPc.Ok.other {buf : Image} {pc : ExecPc} (h : pc.Ok env name buf) (hneeds : pc.needsBuffer = false)
    (buf' : Image) : pc.Ok env name buf' := by
  cases pc with
  | reading n =>
    obtain rfl : n = 0 := by simpa [ExecPc.needsBuffer] using hneeds
    exact ⟨h.1, by omega⟩
  | opening => cases hneeds
  | inFdPut opened openFiles left pc => cases hneeds
  | fetching opened openFiles filename => exact h
  | created opened executable p => exact h
  | failed => trivial

theorem execReached_ok {s : ExecState Pid}
    (h : ExecReached env name ExecState.Undisturbed s) : s.exec.Ok env name s.buf := by
  refine Reachable.invariant (fun s => s.exec.Ok env name s.buf) (fun s hs => ?_) (fun s act s' hok ha hstep => ?_) h
  · rw [hs]
    exact ⟨by decide, by omega⟩
  · cases act with
    | exec =>
      obtain ⟨⟨buf, pc⟩, hpc, rfl⟩ := Option.map_eq_some_iff.mp hstep
      exact hok.step (eq_ok_of_toOption hpc)
    | call p src bytes =>
      dsimp only [ExecState.step] at hstep
      split at hstep
      · cases hstep
        exact hok
      · cases hstep
    | store p =>
      obtain ⟨r, -, rfl⟩ := Option.map_eq_some_iff.mp hstep
      exact hok.other (ha p rfl) _
    | files directory contents =>
      cases hstep
      exact hok

theorem constructFrom_header {junk : Image} {words : ℕ → BitVec 32} {filename : FileName} {space : AddrSpace}
    (h : AddrSpace.constructFrom executable junk words filename = .ok space) :
    space.filename = filename ∧ NoffHeader.fetch executable junk = .ok space.noffH := by
  obtain ⟨noffH, hfetch, h⟩ := bind_eq_ok.mp h
  dsimp only at h
  split at h
  · cases h
  · split at h
    · obtain ⟨onDisk, -, h⟩ := bind_eq_ok.mp h
      cases h
      exact ⟨rfl, hfetch⟩
    · cases h

/-- What an undisturbed `Exec` makes is what `new AddrSpace(name)` makes in a file system where the name stands for
the contents that were read. -/
theorem exec_refines_newAddrSpace {s : ExecState Pid} (h : ExecReached env name ExecState.Undisturbed s)
    {opened : Opened} {p : Process} (hdone : s.exec = .created opened executable p) {fs : Programs}
    (hfs : fs opened.name = some executable) : Os.newAddrSpace { env with fs := fs } name = .ok p := by
  have hok := execReached_ok h
  rw [hdone] at hok
  obtain ⟨hname, hspace, hputs, hp⟩ := hok
  obtain ⟨len, hlen, hstr⟩ := bind_eq_ok.mp hname
  have hstr : (List.range len).map name = opened.name := Except.ok.inj hstr
  have hputs' : Os.newOpenFiles { env with fs := fs } = .ok p.openFiles := hputs
  unfold Os.newAddrSpace
  rw [hlen, ok_bind, hstr, AddrSpace.construct_eq hfs]
  change AddrSpace.constructFrom executable (env.junk 0) env.words opened.name >>= _ = _
  rw [hspace, ok_bind, hputs', ok_bind, hp]
  rfl

/-! ## An `Exec` of `a`, and another process with `b` -/

open Os

/-- Two files, `a` and `b`. -/
def beforeExec : ExecState Unit where
  buf _ := 0
  directory str := if str = [97] then some 0 else if str = [98] then some 1 else none
  contents _ := emptyProgram
  exec := .reading 0
  others _ := none

instance (s : ExecState Pid) (act : ExecAct Pid) : Decidable (s.Undisturbed act) :=
  match act with
  | .store p => decidable_of_iff (s.exec.needsBuffer = false) ⟨fun h _ _ => h, fun h => h p rfl⟩
  | .exec => .isTrue nofun
  | .call _ _ _ => .isTrue nofun
  | .files _ _ => .isTrue nofun

/-- A run by its actions. -/
def ExecState.run (env : Outside) (name : Image) (allowed : ExecState Pid → ExecAct Pid → Prop)
    [∀ s act, Decidable (allowed s act)] : List (ExecAct Pid) → ExecState Pid → Option (ExecState Pid)
  | [], s => some s
  | act :: acts, s =>
    if allowed s act then s.step env name act >>= ExecState.run env name allowed acts else none

theorem ExecReached.run {allowed : ExecState Pid → ExecAct Pid → Prop} [∀ s act, Decidable (allowed s act)]
    {s s' : ExecState Pid} (h : ExecReached env name allowed s) {acts : List (ExecAct Pid)}
    (hrun : ExecState.run env name allowed acts s = some s') : ExecReached env name allowed s' := by
  induction acts generalizing s with
  | nil =>
    cases hrun
    exact h
  | cons act acts ih =>
    unfold ExecState.run at hrun
    split at hrun
    · next hallowed =>
      obtain ⟨s₁, hstep, hrun⟩ := Option.bind_eq_some_iff.mp hrun
      exact ih (.next h hallowed hstep) hrun
    · cases hrun

/-- The name is read, the file opened and both descriptors put, up to the last `Release`. -/
def upToRelease : List (ExecAct Unit) := List.replicate 8 .exec

/-- The system call of another process reads its own name. -/
def readsB : List (ExecAct Unit) := [.call () (ofBytes [98, 0]) 0, .store (), .store ()]

/-- The other process reads its name before the `Exec` and once more after the name is copied. -/
def execUndisturbed : Option (ExecState Unit) :=
  beforeExec.run callerOutside (ofBytes [97, 0]) ExecState.Undisturbed
    (readsB ++ upToRelease ++ [.exec] ++ readsB ++ [.exec])

def execDisturbed : Option (ExecState Unit) :=
  beforeExec.run callerOutside (ofBytes [97, 0]) (fun _ _ => True) (upToRelease ++ readsB ++ [.exec, .exec])

/-- The file name of the address space, and the name under which the file was opened. -/
def ExecPc.names : ExecPc → Option (FileName × FileName)
  | .created opened _ p => some (p.space.filename, opened.name)
  | _ => none

theorem ExecPc.names_eq_some {pc : ExecPc} {filename name : FileName} (h : pc.names = some (filename, name)) :
    ∃ opened executable p, pc = .created opened executable p ∧ p.space.filename = filename ∧ opened.name = name := by
  cases pc with
  | created opened executable p =>
    cases h
    exact ⟨opened, executable, p, rfl, rfl, rfl⟩
  | reading n => cases h
  | opening => cases h
  | inFdPut opened openFiles left pc => cases h
  | fetching opened openFiles filename => cases h
  | failed => cases h

set_option maxRecDepth 100000 in
theorem execUndisturbed_names : execUndisturbed.bind (fun s => s.exec.names) = some ([97], [97]) := by decide +kernel

set_option maxRecDepth 100000 in
theorem execDisturbed_names : execDisturbed.bind (fun s => s.exec.names) = some ([98], [97]) := by decide +kernel

/-! ## The name of the program that is loaded -/

/-- The new address space has the name that the register pointed to, the file was opened under this name, and its
header is the one that was read. -/
theorem exec_loads_named {s : ExecState Pid} (h : ExecReached env name ExecState.Undisturbed s) {opened : Opened}
    {p : Process} (hdone : s.exec = .created opened executable p) :
    stringAt name = .ok p.space.filename ∧ opened.name = p.space.filename ∧
      NoffHeader.fetch executable (env.junk 0) = .ok p.space.noffH := by
  have hok := execReached_ok h
  rw [hdone] at hok
  obtain ⟨hname, hspace, -, -⟩ := hok
  obtain ⟨hfilename, hheader⟩ := constructFrom_header hspace
  rw [hfilename]
  exact ⟨hname, rfl, hheader⟩

/-- The other process reads `b` into the buffer before and after. -/
theorem exec_loads_named_among : ∃ (s : ExecState Unit) (opened : Opened) (executable : Executable) (p : Process),
    ExecReached callerOutside (ofBytes [97, 0]) ExecState.Undisturbed s ∧ s.exec = .created opened executable p ∧
      execUndisturbed = some s ∧ stringAt (ofBytes [97, 0]) = .ok p.space.filename ∧ opened.name = p.space.filename ∧
      NoffHeader.fetch executable (callerOutside.junk 0) = .ok p.space.noffH := by
  obtain ⟨s, hrun, hnames⟩ := Option.bind_eq_some_iff.mp execUndisturbed_names
  obtain ⟨opened, executable, p, hdone, -, -⟩ := ExecPc.names_eq_some hnames
  have hstart : ExecReached callerOutside (ofBytes [97, 0]) ExecState.Undisturbed beforeExec := .start rfl
  have hreached := hstart.run hrun
  exact ⟨s, opened, executable, p, hreached, hdone, hrun, exec_loads_named hreached hdone⟩

/-- The file was opened as `a`, the name at `r4`, and the pages will be loaded from `b`. -/
theorem exec_loads_other : ∃ (s : ExecState Unit) (opened : Opened) (executable : Executable) (p : Process),
    ExecReached callerOutside (ofBytes [97, 0]) (fun _ _ => True) s ∧ s.exec = .created opened executable p ∧
      stringAt (ofBytes [97, 0]) = .ok [97] ∧ opened.name = [97] ∧ p.space.filename = [98] := by
  obtain ⟨s, hrun, hnames⟩ := Option.bind_eq_some_iff.mp execDisturbed_names
  obtain ⟨opened, executable, p, hdone, hfilename, hname⟩ := ExecPc.names_eq_some hnames
  have hstart : ExecReached callerOutside (ofBytes [97, 0]) (fun _ _ => True) beforeExec := .start rfl
  have hstring : stringAt (ofBytes [97, 0]) = .ok [97] := eq_ok_of_toOption (by decide +kernel)
  exact ⟨s, opened, executable, p, hstart.run hrun, hdone, hstring, hname, hfilename⟩

end Nachos
