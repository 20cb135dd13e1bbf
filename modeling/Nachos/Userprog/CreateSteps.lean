import Nachos.Filesys.Blocking
import Nachos.Filesys.Names
import Nachos.Userprog.AddrSpace
import Mathlib.Logic.Relation

/-! # Two `Create` system calls, step by step (`Create_Syscall_Func`, `FileSystem::Create`)

`Create` fetches the directory and the free map, edits its copies and writes them back, and it blocks in every
disk request in between. The name it was given is in the one buffer of `AddrSpace::read`, which the next system
call of any process overwrites. `TwoCreates.step` lets one of two calls take its next step: a byte of the name,
a disk request, or the computation up to the next request. `resume` is what a call comes to if it is left alone
from now on. -/
set_option autoImplicit false

namespace Nachos
open Buffer Execution Interleaving

/-! ## The calls -/

/-- Where a `Create` system call stands. -/
inductive CreateCall where
  | idle
  /-- `AddrSpace::read` copies byte `n` of the name next. -/
  | naming (n : ℕ)
  | fetchingDirectory (rest : Request Directory)
  | fetchingFreeMap (directory : Directory) (rest : Request BitMap)
  /-- The header and the directory are being written back. -/
  | updatingDirectory (freeMap : BitMap) (rest : Request Unit)
  | updatingFreeMap (rest : Request Unit)
  | returned (success : Bool)

/-- The file system, what the two processes' name pointers refer to, and what the memory they allocate holds. -/
structure TwoCreates where
  fs : FileSystem
  name : Bool → Image
  junk : Bool → ℕ → Image

structure CreateState where
  disk : Disk
  /-- The static buffer of `AddrSpace::read`. -/
  buf : Image
  call : Bool → CreateCall

/-- Call `t` has taken a step. -/
def CreateState.put (s : CreateState) (t : Bool) (disk : Disk) (buf : Image) (call : CreateCall) : CreateState :=
  ⟨disk, buf, Function.update s.call t call⟩

/-- The next disk request of a call. -/
def CreateCall.request (disk : Disk) : CreateCall → Option (CreateCall × Disk)
  | .fetchingDirectory p => (p.access disk).map fun r => (.fetchingDirectory r.1, r.2)
  | .fetchingFreeMap directory p => (p.access disk).map fun r => (.fetchingFreeMap directory r.1, r.2)
  | .updatingDirectory freeMap p => (p.access disk).map fun r => (.updatingDirectory freeMap r.1, r.2)
  | .updatingFreeMap p => (p.access disk).map fun r => (.updatingFreeMap r.1, r.2)
  | _ => none

namespace TwoCreates

variable (c : TwoCreates)

/-- `Create` once it has the directory. -/
def lookUp (t : Bool) (buf : Image) (directory : Directory) : CreateCall :=
  if directory.find buf ≠ -1 then .returned false
  else .fetchingFreeMap directory (Blocking.fetchFreeMap c.fs (c.junk t))

/-- The write-backs of the header and of the directory. -/
def writeBacks (t : Bool) (sector : Int) (hdr : FileHeader) (directory : Directory) : Request Unit := do
  Blocking.writeSector sector hdr.image
  Blocking.writeDirectory c.fs (c.junk t 5) directory

/-- `Create` once it has the free map as well, up to the first of its write-backs. -/
def allocate (t : Bool) (buf : Image) (directory : Directory) (freeMap : BitMap) : Call CreateCall := do
  let (sector, freeMap) ← freeMap.find
  if sector = -1 then return .returned false
  else if ! (directory.add buf sector).1 then return .returned false
  else
    let (success, hdr, freeMap) ← (FileHeader.ofImage (c.junk t 4)).allocate freeMap 0
    if ! success then return .returned false
    else return .updatingDirectory freeMap (c.writeBacks t sector hdr (directory.add buf sector).2)

/-- What a call does between two requests: with the buffer afterwards. -/
def proceed (t : Bool) (buf : Image) : CreateCall → Option (Image × CreateCall)
  | .idle => some (buf, .naming 0)
  | .naming n => some (Function.update buf n (c.name t n),
      if c.name t n = 0 ∨ n + 1 = bufferSize then .fetchingDirectory (Blocking.fetchDirectory c.fs (c.junk t))
      else .naming (n + 1))
  | .fetchingDirectory (.ret directory) => some (buf, c.lookUp t buf directory)
  | .fetchingFreeMap directory (.ret freeMap) =>
    (c.allocate t buf directory freeMap).toOption.map (Prod.mk buf)
  | .updatingDirectory freeMap (.ret ()) =>
    some (buf, .updatingFreeMap (Blocking.writeFreeMap c.fs (c.junk t 6) freeMap))
  | .updatingFreeMap (.ret ()) => some (buf, .returned true)
  | _ => none

/-- The next step of call `t`. -/
def step (t : Bool) (s : CreateState) : Option CreateState :=
  match (s.call t).request s.disk with
  | some (call, disk) => some (s.put t disk s.buf call)
  | none => (c.proceed t s.buf (s.call t)).map fun r => s.put t s.disk r.1 r.2

end TwoCreates

section Put

variable (s : CreateState) (t : Bool) (disk : Disk) (buf : Image) (call : CreateCall)

@[simp] theorem put_call : (s.put t disk buf call).call t = call := Function.update_self _ _ _

@[simp] theorem put_call_not : (s.put t disk buf call).call (! t) = s.call (! t) :=
  Function.update_of_ne (Bool.not_ne_self t) _ _

@[simp] theorem put_not_call : (s.put (! t) disk buf call).call t = s.call t :=
  Function.update_of_ne (Bool.not_ne_self t).symm _ _

@[simp] theorem put_disk : (s.put t disk buf call).disk = disk := rfl

@[simp] theorem put_buf : (s.put t disk buf call).buf = buf := rfl

@[simp] theorem put_put (disk' : Disk) (buf' : Image) (call' : CreateCall) :
    (s.put t disk buf call).put t disk' buf' call' = s.put t disk' buf' call' := by
  simp only [CreateState.put, Function.update_idem]

end Put

/-- The call has taken a copy of the directory, or is about to, and has not written it back. -/
def CreateCall.holdsDirectory : CreateCall → Bool
  | .naming _ | .fetchingDirectory _ | .fetchingFreeMap _ _ | .updatingDirectory _ _ => true
  | _ => false

/-- The call has taken a copy of the free map and has not written it back. -/
def CreateCall.holdsFreeMap : CreateCall → Bool
  | .fetchingFreeMap _ _ | .updatingDirectory _ _ | .updatingFreeMap _ => true
  | _ => false

namespace CreateState

/-- Neither call has begun. -/
def Start (disk : Disk) (s : CreateState) : Prop := s.disk = disk ∧ ∀ t, s.call t = .idle

/-- Call `t` begins only while the other does not hold the directory, and goes on from the directory to the free map
only while the other does not hold that. -/
def apart (s : CreateState) (t : Bool) : Bool :=
  match s.call t with
  | .idle => ! (s.call (! t)).holdsDirectory
  | .fetchingDirectory (.ret _) => ! (s.call (! t)).holdsFreeMap
  | _ => true

end CreateState

/-! ## Names up to the comparison -/

/-- Two buffers that agree up to the end of the string, or up to where names are cut off. -/
theorem cstring_of_agree {n k : ℕ} {a b : Image} (h : ∀ o ≤ n, a o = b o) (hn : b n = 0 ∨ k ≤ n + 1) :
    cstring k a = cstring k b := by
  induction k generalizing n a b with
  | zero => rfl
  | succ k ih =>
    have h0 := h 0 (Nat.zero_le n)
    by_cases hz : b 0 = 0
    · simp only [cstring, h0, hz, if_true]
    · have hrest : cstring k (shift a 1) = cstring k (shift b 1) := by
        cases n with
        | zero =>
          rcases hn with hn | hn
          · exact absurd hn hz
          · obtain rfl : k = 0 := by omega
            rfl
        | succ n =>
          refine ih (n := n) (fun o ho => h (1 + o) (by omega)) ?_
          rw [shift_apply, Nat.add_comm 1 n]
          exact hn.imp id (by omega)
      simp only [cstring, h0, hrest]

theorem strncpy_congr {n : ℕ} {a b : Image} (h : cstring n a = cstring n b) (dst : Image) :
    strncpy n dst a = strncpy n dst b := by
  induction n generalizing a b dst with
  | zero => rfl
  | succ n ih =>
    by_cases ha : a 0 = 0
    · by_cases hb : b 0 = 0
      · simp only [strncpy, ha, hb, if_true]
      · simp [cstring, ha, hb] at h
    · by_cases hb : b 0 = 0
      · simp [cstring, ha, hb] at h
      · simp only [cstring, ha, hb, if_false, List.cons.injEq] at h
        simp only [strncpy, h.1, hb, if_false, ih h.2]

namespace Directory

variable {a b : Image}

theorem findIndex_congr (h : cstring fileNameMaxLen a = cstring fileNameMaxLen b) (d : Directory) :
    d.findIndex a = d.findIndex b := by
  have hfrom : ∀ n i, d.findIndexFrom a i n = d.findIndexFrom b i n := by
    intro n
    induction n with
    | zero =>
      intro i
      rfl
    | succ n ih =>
      intro i
      have hcmp : strncmpEq fileNameMaxLen (d.table i).name a = strncmpEq fileNameMaxLen (d.table i).name b := by
        rw [Bool.eq_iff_iff, strncmpEq_iff, strncmpEq_iff, h]
      simp only [findIndexFrom, hcmp, ih]
  exact hfrom _ 0

theorem find_congr (h : cstring fileNameMaxLen a = cstring fileNameMaxLen b) (d : Directory) :
    d.find a = d.find b := by
  unfold find
  rw [findIndex_congr h]

theorem add_congr (h : cstring fileNameMaxLen a = cstring fileNameMaxLen b) (d : Directory) (sector : Int) :
    d.add a sector = d.add b sector := by
  have hfrom : ∀ n i, d.addFrom a sector i n = d.addFrom b sector i n := by
    intro n
    induction n with
    | zero =>
      intro i
      rfl
    | succ n ih =>
      intro i
      simp only [addFrom, strncpy_congr h, ih]
  unfold add
  rw [findIndex_congr h, hfrom]

end Directory

/-! ## What a call still has to do -/

namespace TwoCreates

variable {c : TwoCreates} {t : Bool} {call call' : CreateCall} {disk disk' : Disk} {buf buf' : Image}

/-- `FileSystem::Create` as the system call makes it. -/
def create (c : TwoCreates) (t : Bool) (disk : Disk) : Call (Bool × Disk) :=
  c.fs.create (c.junk t) disk (c.name t) 0

/-- `Create` from the fetched free map on. -/
def fromFreeMap (c : TwoCreates) (t : Bool) (directory : Directory) (freeMap : BitMap) (disk : Disk) :
    Call (Bool × Disk) := do
  let (sector, freeMap) ← freeMap.find
  if sector = -1 then return (false, disk)
  else if ! (directory.add (c.name t) sector).1 then return (false, disk)
  else c.fs.createFile (c.junk t) disk (directory.add (c.name t) sector).2 freeMap sector 0

/-- `Create` from the fetched directory on. -/
def fromDirectory (c : TwoCreates) (t : Bool) (directory : Directory) (disk : Disk) : Call (Bool × Disk) :=
  if directory.find (c.name t) ≠ -1 then return (false, disk)
  else do
    let freeMap ← c.fs.fetchFreeMap (c.junk t) disk
    c.fromFreeMap t directory freeMap disk

theorem create_eq (c : TwoCreates) (t : Bool) (disk : Disk) :
    c.create t disk = c.fs.fetchDirectory (c.junk t) disk >>= fun directory => c.fromDirectory t directory disk := rfl

/-- What a call comes to if it is not disturbed any more. -/
def resume (c : TwoCreates) (t : Bool) (disk : Disk) : CreateCall → Call (Bool × Disk)
  | .idle => c.create t disk
  | .naming _ => c.create t disk
  | .fetchingDirectory p => p.run disk >>= fun r => c.fromDirectory t r.1 r.2
  | .fetchingFreeMap directory p => p.run disk >>= fun r => c.fromFreeMap t directory r.1 r.2
  | .updatingDirectory freeMap p => p.run disk >>= fun r =>
      freeMap.writeBack r.2 c.fs.freeMapFile (c.junk t 6) >>= fun disk => .ok (true, disk)
  | .updatingFreeMap p => p.run disk >>= fun r => .ok (true, r.2)
  | .returned success => .ok (success, disk)

/-- The buffer holds the call's name as far as the call will need it. -/
def Named (name : Image) (buf : Image) : CreateCall → Prop
  | .naming n => ∀ o < n, buf o = name o
  | .fetchingDirectory _ => cstring fileNameMaxLen buf = cstring fileNameMaxLen name
  | .fetchingFreeMap _ _ => cstring fileNameMaxLen buf = cstring fileNameMaxLen name
  | _ => True

/-! ## The steps -/

inductive Requests (disk : Disk) : CreateCall → CreateCall → Disk → Prop
  | directory {p p' : Request Directory} {disk' : Disk} (h : p.access disk = some (p', disk')) :
      Requests disk (.fetchingDirectory p) (.fetchingDirectory p') disk'
  | freeMap {d : Directory} {p p' : Request BitMap} {disk' : Disk} (h : p.access disk = some (p', disk')) :
      Requests disk (.fetchingFreeMap d p) (.fetchingFreeMap d p') disk'
  | writeDirectory {b : BitMap} {p p' : Request Unit} {disk' : Disk} (h : p.access disk = some (p', disk')) :
      Requests disk (.updatingDirectory b p) (.updatingDirectory b p') disk'
  | writeFreeMap {p p' : Request Unit} {disk' : Disk} (h : p.access disk = some (p', disk')) :
      Requests disk (.updatingFreeMap p) (.updatingFreeMap p') disk'

inductive Proceeds (c : TwoCreates) (t : Bool) (buf : Image) : CreateCall → Image → CreateCall → Prop
  | begin : Proceeds c t buf .idle buf (.naming 0)
  | byte {n : ℕ} (h : ¬ (c.name t n = 0 ∨ n + 1 = bufferSize)) :
      Proceeds c t buf (.naming n) (Function.update buf n (c.name t n)) (.naming (n + 1))
  | lastByte {n : ℕ} (h : c.name t n = 0 ∨ n + 1 = bufferSize) :
      Proceeds c t buf (.naming n) (Function.update buf n (c.name t n))
        (.fetchingDirectory (Blocking.fetchDirectory c.fs (c.junk t)))
  | lookUp (d : Directory) : Proceeds c t buf (.fetchingDirectory (.ret d)) buf (c.lookUp t buf d)
  | allocate {d : Directory} {b : BitMap} {call : CreateCall} (h : c.allocate t buf d b = .ok call) :
      Proceeds c t buf (.fetchingFreeMap d (.ret b)) buf call
  | flush (b : BitMap) : Proceeds c t buf (.updatingDirectory b (.ret ())) buf
      (.updatingFreeMap (Blocking.writeFreeMap c.fs (c.junk t 6) b))
  | finish : Proceeds c t buf (.updatingFreeMap (.ret ())) buf (.returned true)

theorem request_cases (h : call.request disk = some (call', disk')) : Requests disk call call' disk' := by
  cases call with
  | idle => cases h
  | naming n => cases h
  | returned r => cases h
  | fetchingDirectory p =>
    obtain ⟨⟨p', disk₁⟩, haccess, heq⟩ := Option.map_eq_some_iff.mp h
    cases heq
    exact .directory haccess
  | fetchingFreeMap d p =>
    obtain ⟨⟨p', disk₁⟩, haccess, heq⟩ := Option.map_eq_some_iff.mp h
    cases heq
    exact .freeMap haccess
  | updatingDirectory b p =>
    obtain ⟨⟨p', disk₁⟩, haccess, heq⟩ := Option.map_eq_some_iff.mp h
    cases heq
    exact .writeDirectory haccess
  | updatingFreeMap p =>
    obtain ⟨⟨p', disk₁⟩, haccess, heq⟩ := Option.map_eq_some_iff.mp h
    cases heq
    exact .writeFreeMap haccess

theorem proceed_cases (h : c.proceed t buf call = some (buf', call')) : Proceeds c t buf call buf' call' := by
  unfold proceed at h
  split at h
  · cases h
    exact .begin
  · next n =>
    by_cases hend : c.name t n = 0 ∨ n + 1 = bufferSize
    · rw [if_pos hend] at h
      cases h
      exact .lastByte hend
    · rw [if_neg hend] at h
      cases h
      exact .byte hend
  · cases h
    exact .lookUp _
  · obtain ⟨call₁, hcall, heq⟩ := Option.map_eq_some_iff.mp h
    cases heq
    exact .allocate (eq_ok_of_toOption hcall)
  · cases h
    exact .flush _
  · cases h
    exact .finish
  · cases h

theorem step_cases {s s' : CreateState} (h : c.step t s = some s') :
    (∃ call disk, Requests s.disk (s.call t) call disk ∧ s' = s.put t disk s.buf call) ∨
    ∃ buf call, Proceeds c t s.buf (s.call t) buf call ∧ s' = s.put t s.disk buf call := by
  unfold step at h
  split at h
  · next call disk hrequest =>
    cases h
    exact Or.inl ⟨call, disk, request_cases hrequest, rfl⟩
  · obtain ⟨⟨buf, call⟩, hproceed, heq⟩ := Option.map_eq_some_iff.mp h
    cases heq
    exact Or.inr ⟨buf, call, proceed_cases hproceed, rfl⟩

/-! ## One step does not change what the call comes to -/

theorem Requests.resume (h : Requests disk call call' disk') : c.resume t disk' call' = c.resume t disk call := by
  cases h with
  | directory h => simp only [TwoCreates.resume, Program.run_access h]
  | freeMap h => simp only [TwoCreates.resume, Program.run_access h]
  | writeDirectory h => simp only [TwoCreates.resume, Program.run_access h]
  | writeFreeMap h => simp only [TwoCreates.resume, Program.run_access h]

theorem resume_lookUp (hname : cstring fileNameMaxLen buf = cstring fileNameMaxLen (c.name t)) (d : Directory) :
    c.resume t disk (c.lookUp t buf d) = c.fromDirectory t d disk := by
  unfold lookUp fromDirectory
  rw [Directory.find_congr hname]
  split
  · rfl
  · simp [resume, Blocking.run_fetchFreeMap, Blocking.reading]

theorem fromFreeMap_eq (hname : cstring fileNameMaxLen buf = cstring fileNameMaxLen (c.name t)) (d : Directory)
    (b : BitMap) (disk : Disk) :
    c.fromFreeMap t d b disk = c.allocate t buf d b >>= fun call => c.resume t disk call := by
  unfold fromFreeMap allocate
  rw [bind_assoc]
  refine bind_congr fun r => ?_
  obtain ⟨sector, b₁⟩ := r
  dsimp only
  rw [Directory.add_congr hname]
  split
  · rfl
  · split
    · rfl
    · unfold FileSystem.createFile
      rw [bind_assoc]
      refine bind_congr fun r => ?_
      obtain ⟨success, hdr, b₂⟩ := r
      cases success with
      | false => rfl
      | true => simp [resume, writeBacks, Blocking.run_writeSector, Blocking.run_writeDirectory, Blocking.writing,
          FileHeader.writeBack]

theorem Proceeds.resume (h : Proceeds c t buf call buf' call') (hname : Named (c.name t) buf call) :
    c.resume t disk call' = c.resume t disk call := by
  cases h with
  | begin => rfl
  | byte h => rfl
  | lastByte h =>
    simp [TwoCreates.resume, create_eq, Blocking.run_fetchDirectory, Blocking.reading]
  | lookUp d => exact resume_lookUp hname d
  | @allocate d b call' h =>
    have heq := fromFreeMap_eq hname d b disk
    rw [h, ok_bind] at heq
    exact heq.symm
  | flush b => simp [TwoCreates.resume, Program.run, Blocking.run_writeFreeMap, Blocking.writing]
  | finish => rfl

theorem Requests.named {name : Image} (h : Requests disk call call' disk') (hname : Named name buf call) :
    Named name buf call' := by
  cases h with
  | directory h => exact hname
  | freeMap h => exact hname
  | writeDirectory h => trivial
  | writeFreeMap h => trivial

/-- With the free map fetched, the call gives up or goes on to its write-backs. -/
theorem allocate_cases {d : Directory} {b : BitMap} (h : c.allocate t buf d b = .ok call) :
    call = .returned false ∨ ∃ freeMap rest, call = .updatingDirectory freeMap rest := by
  obtain ⟨⟨sector, b₁⟩, -, h⟩ := bind_eq_ok.mp h
  dsimp only at h
  split at h
  · cases h
    exact Or.inl rfl
  · split at h
    · cases h
      exact Or.inl rfl
    · obtain ⟨⟨success, hdr, b₂⟩, -, h⟩ := bind_eq_ok.mp h
      cases success with
      | false =>
        cases h
        exact Or.inl rfl
      | true =>
        cases h
        exact Or.inr ⟨_, _, rfl⟩

theorem Proceeds.named (h : Proceeds c t buf call buf' call') (hname : Named (c.name t) buf call) :
    Named (c.name t) buf' call' := by
  cases h with
  | begin => exact fun o ho => absurd ho (Nat.not_lt_zero o)
  | @byte n h => exact fun o ho => update_agrees hname o (by omega)
  | @lastByte n h =>
    refine cstring_of_agree (update_agrees hname) (h.imp id fun hlast => ?_)
    simp only [bufferSize, fileNameMaxLen] at *
    omega
  | lookUp d =>
    unfold TwoCreates.lookUp
    split
    · trivial
    · exact hname
  | allocate h =>
    rcases allocate_cases h with rfl | ⟨freeMap, rest, rfl⟩
    · trivial
    · trivial
  | flush b => trivial
  | finish => trivial

theorem Requests.begun (h : Requests disk call call' disk') : call' ≠ .idle := by
  cases h with
  | directory h => nofun
  | freeMap h => nofun
  | writeDirectory h => nofun
  | writeFreeMap h => nofun

theorem Proceeds.begun (h : Proceeds c t buf call buf' call') : call' ≠ .idle := by
  cases h with
  | begin => nofun
  | byte h => nofun
  | lastByte h => nofun
  | lookUp d =>
    unfold TwoCreates.lookUp
    split
    · nofun
    · nofun
  | allocate h =>
    rcases allocate_cases h with rfl | ⟨freeMap, rest, rfl⟩
    · nofun
    · nofun
  | flush b => nofun
  | finish => nofun

/-- The directory is fetched from its own sectors, and the free map is written to its own. -/
def Bounded (c : TwoCreates) : CreateCall → Prop
  | .fetchingDirectory p => p.Uses (Blocking.OnFile c.fs.directoryFile.hdr) fun _ => False
  | .updatingFreeMap p => p.Uses (Blocking.OnFile c.fs.freeMapFile.hdr) (Blocking.OnFile c.fs.freeMapFile.hdr)
  | _ => True

theorem Requests.bounded (h : Requests disk call call' disk') (hb : c.Bounded call) : c.Bounded call' := by
  cases h with
  | directory h => exact Program.Uses.access hb h
  | freeMap h => trivial
  | writeDirectory h => trivial
  | writeFreeMap h => exact Program.Uses.access hb h

theorem Proceeds.bounded (h : Proceeds c t buf call buf' call') (hdir : c.fs.directoryFile.hdr.WellFormed)
    (hmap : c.fs.freeMapFile.hdr.WellFormed) : c.Bounded call' := by
  cases h with
  | begin => trivial
  | byte h => trivial
  | lastByte h => exact Blocking.uses_fetchDirectory hdir (c.junk t)
  | lookUp d =>
    unfold TwoCreates.lookUp
    split
    · trivial
    · trivial
  | allocate h =>
    rcases allocate_cases h with rfl | ⟨freeMap, rest, rfl⟩
    · trivial
    · trivial
  | flush b => exact Blocking.uses_writeFreeMap hmap (c.junk t 6) b
  | finish => trivial

/-! ## A call left alone -/

/-- Call `t` takes steps, and the other does not. -/
def Alone (c : TwoCreates) (t : Bool) : CreateState → CreateState → Prop :=
  Relation.ReflTransGen fun s s' => c.step t s = some s'

section Alone

variable (s : CreateState)

theorem step_request (h : call.request disk = some (call', disk')) :
    c.step t (s.put t disk buf call) = some (s.put t disk' buf call') := by
  unfold step
  rw [put_call, put_disk, h]
  simp only [put_buf, put_put]

theorem step_proceed (h : call.request disk = none) (hproceed : c.proceed t buf call = some (buf', call')) :
    c.step t (s.put t disk buf call) = some (s.put t disk buf' call') := by
  unfold step
  rw [put_call, put_disk, h]
  simp only [put_buf, hproceed, Option.map_some, put_put]

/-- All the requests of one of the file operations. -/
theorem alone_requests {α : Type} (phase : Request α → CreateCall)
    (hphase : ∀ p disk, (phase p).request disk = (p.access disk).map fun r => (phase r.1, r.2)) {p : Request α} {a : α}
    (h : p.run disk = .ok (a, disk')) : c.Alone t (s.put t disk buf (phase p)) (s.put t disk' buf (phase (.ret a))) := by
  induction p generalizing disk with
  | ret b =>
    cases h
    exact .refl
  | fail e => cases h
  | read i next ih =>
    refine .head (step_request s ?_) (ih (disk i) h)
    rw [hphase]
    rfl
  | update i f next ih =>
    refine .head (step_request s ?_) (ih h)
    rw [hphase]
    rfl

theorem step_naming (n : ℕ) : c.step t (s.put t disk buf (.naming n)) =
    some (s.put t disk (Function.update buf n (c.name t n))
      (if c.name t n = 0 ∨ n + 1 = bufferSize then .fetchingDirectory (Blocking.fetchDirectory c.fs (c.junk t))
        else .naming (n + 1))) :=
  step_proceed s rfl rfl

theorem alone_naming (disk : Disk) (k : ℕ) {n : ℕ} (hk : n + k + 1 = bufferSize)
    (hnamed : Named (c.name t) buf (.naming n)) :
    ∃ buf', c.Alone t (s.put t disk buf (.naming n))
        (s.put t disk buf' (.fetchingDirectory (Blocking.fetchDirectory c.fs (c.junk t)))) ∧
      cstring fileNameMaxLen buf' = cstring fileNameMaxLen (c.name t) := by
  induction k generalizing n buf with
  | zero =>
    have hend : c.name t n = 0 ∨ n + 1 = bufferSize := Or.inr (by omega)
    refine ⟨_, .single ?_, (Proceeds.lastByte hend).named hnamed⟩
    rw [step_naming, if_pos hend]
  | succ k ih =>
    by_cases hend : c.name t n = 0 ∨ n + 1 = bufferSize
    · refine ⟨_, .single ?_, (Proceeds.lastByte hend).named hnamed⟩
      rw [step_naming, if_pos hend]
    · obtain ⟨buf', halone, hname⟩ := ih (n := n + 1) (by omega) ((Proceeds.byte hend).named hnamed)
      refine ⟨buf', .head ?_ halone, hname⟩
      rw [step_naming, if_neg hend]

variable {s}

theorem put_self (h : s.call t = call) : s.put t s.disk s.buf call = s := by
  obtain ⟨disk, buf, calls⟩ := s
  simp only [CreateState.put, ← h, Function.update_eq_self]

theorem alone_begins (hidle : s.call t = .idle) : ∃ buf', c.Alone t s
    (s.put t s.disk buf' (.fetchingDirectory (Blocking.fetchDirectory c.fs (c.junk t)))) ∧
      cstring fileNameMaxLen buf' = cstring fileNameMaxLen (c.name t) := by
  have hnamed : Named (c.name t) s.buf (.naming 0) := Proceeds.begin.named trivial
  obtain ⟨buf', halone, hname⟩ := alone_naming s s.disk (bufferSize - 1) rfl hnamed
  have hput : c.step t (s.put t s.disk s.buf .idle) = some (s.put t s.disk s.buf (.naming 0)) := step_proceed s rfl rfl
  rw [put_self hidle] at hput
  exact ⟨buf', .head hput halone, hname⟩

variable (s)

/-- The call has its copy of the directory, and looks the name up. -/
theorem alone_directory (buf : Image) {d : Directory} (h : c.fs.fetchDirectory (c.junk t) disk = .ok d) :
    c.Alone t (s.put t disk buf (.fetchingDirectory (Blocking.fetchDirectory c.fs (c.junk t))))
      (s.put t disk buf (c.lookUp t buf d)) := by
  have hrun : (Blocking.fetchDirectory c.fs (c.junk t)).run disk = .ok (d, disk) := by
    rw [Blocking.run_fetchDirectory, h]
    rfl
  exact .tail (alone_requests s .fetchingDirectory (fun _ _ => rfl) hrun) (step_proceed s rfl rfl)

/-- The call has its copy of the free map, and allocates. -/
theorem alone_freeMap {d : Directory} {b : BitMap} (h : c.fs.fetchFreeMap (c.junk t) disk = .ok b)
    (hcall : c.allocate t buf d b = .ok call) :
    c.Alone t (s.put t disk buf (.fetchingFreeMap d (Blocking.fetchFreeMap c.fs (c.junk t))))
      (s.put t disk buf call) := by
  have hrun : (Blocking.fetchFreeMap c.fs (c.junk t)).run disk = .ok (b, disk) := by
    rw [Blocking.run_fetchFreeMap, h]
    rfl
  refine .tail (alone_requests s (.fetchingFreeMap d) (fun _ _ => rfl) hrun) (step_proceed s rfl ?_)
  simp only [proceed, hcall, Except.toOption, Option.map_some]

variable {s}

/-- The write-backs. -/
theorem alone_updates {b : BitMap} {p : Request Unit} {r : Bool} (hcall : s.call t = .updatingDirectory b p)
    (h : c.resume t s.disk (.updatingDirectory b p) = .ok (r, disk')) :
    c.Alone t s (s.put t disk' s.buf (.returned r)) := by
  obtain ⟨⟨_, disk₁⟩, hrun, h⟩ := bind_eq_ok.mp h
  obtain ⟨disk₂, hmap, h⟩ := bind_eq_ok.mp h
  cases h
  have hflush : (Blocking.writeFreeMap c.fs (c.junk t 6) b).run disk₁ = .ok ((), disk') := by
    rw [Blocking.run_writeFreeMap, hmap]
    rfl
  have hdirectory : c.Alone t (s.put t s.disk s.buf (.updatingDirectory b p))
      (s.put t disk₁ s.buf (.updatingFreeMap (Blocking.writeFreeMap c.fs (c.junk t 6) b))) :=
    .tail (alone_requests s (.updatingDirectory b) (fun _ _ => rfl) hrun) (step_proceed s rfl rfl)
  have hfreeMap : c.Alone t (s.put t disk₁ s.buf (.updatingFreeMap (Blocking.writeFreeMap c.fs (c.junk t 6) b)))
      (s.put t disk' s.buf (.returned true)) :=
    .tail (alone_requests s .updatingFreeMap (fun _ _ => rfl) hflush) (step_proceed s rfl rfl)
  rw [put_self hcall] at hdirectory
  exact hdirectory.trans hfreeMap

/-- A call that is left alone from the beginning returns what `FileSystem::Create` returns. -/
theorem alone_returns {r : Bool} (hidle : s.call t = .idle) (h : c.create t s.disk = .ok (r, disk')) :
    ∃ buf', c.Alone t s (s.put t disk' buf' (.returned r)) := by
  obtain ⟨buf', halone, hname⟩ := alone_begins (c := c) hidle
  rw [create_eq] at h
  obtain ⟨d, hd, h⟩ := bind_eq_ok.mp h
  refine ⟨buf', halone.trans ((alone_directory s buf' hd).trans ?_)⟩
  unfold fromDirectory at h
  unfold lookUp
  rw [Directory.find_congr hname]
  split
  · next hfound =>
    rw [if_pos hfound] at h
    cases h
    exact .refl
  · next hfound =>
    rw [if_neg hfound] at h
    obtain ⟨b, hb, h⟩ := bind_eq_ok.mp h
    rw [fromFreeMap_eq hname] at h
    obtain ⟨call, hcall, h⟩ := bind_eq_ok.mp h
    refine (alone_freeMap s hb hcall).trans ?_
    rcases allocate_cases hcall with rfl | ⟨freeMap, rest, rfl⟩
    · cases h
      exact .refl
    · have hwrites := alone_updates (s := s.put t s.disk buf' (.updatingDirectory freeMap rest)) (put_call _ _ _ _ _) h
      rwa [put_put] at hwrites

end Alone

end TwoCreates

end Nachos
